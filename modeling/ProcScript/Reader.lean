import ProcScript.Diagnostic
import ProcScript.Expr

/-!
# ProcScript — Reader

A token list that is being read.  A reader holds the tokens to come, the `eof` behind them, the
kind of the token passed last, the next free expression number, and what was found wrong so
far.  A reading from a reader with `n` tokens to come is an `Outcome`: a value and a reader
that has fewer than `n`, or a failure, already reported, and a reader that has no more than
`n`.  So the type of a reading says that it moves on, and what follows it may recurse.
-/

namespace ProcScript

/-- A token list that is being read. -/
structure Reader where
  /-- The kind of the token passed last. -/
  last : Kind
  /-- The tokens to come, up to and without the first `eof`. -/
  rest : List Token
  /-- The `eof` behind them. -/
  stop : Token
  /-- The number of the next expression. -/
  nextId : ExprId
  /-- What was found wrong, oldest first. -/
  found : List Diagnostic

/-- A reading of an `α` from a reader with `n` tokens to come. -/
inductive Outcome (α : Type) (n : Nat) where
  | ok (value : α) (after : Reader) (shorter : after.rest.length < n)
  | fail (after : Reader) (notLonger : after.rest.length ≤ n)

namespace Outcome

variable {α β : Type} {m n : Nat}

/-- The reader that is left. -/
def after : Outcome α n → Reader
  | ok _ s _ => s
  | fail s _ => s

/-- The value that was read, if any. -/
def value? : Outcome α n → Option α
  | ok a _ _ => some a
  | fail _ _ => none

/-- The reading, seen from a reader with more tokens to come. -/
def mono (o : Outcome α m) (h : m ≤ n) : Outcome α n :=
  match o with
  | ok a s hs => ok a s (Nat.lt_of_lt_of_le hs h)
  | fail s hs => fail s (Nat.le_trans hs h)

/-- The reading, seen from a reader that has passed less. -/
def past (o : Outcome α m) (h : m < n) : Outcome α n := o.mono (Nat.le_of_lt h)

/-- The reading with `f` of its value. -/
def map (f : α → β) : Outcome α n → Outcome β n
  | ok a s h => ok (f a) s h
  | fail s h => fail s h

/-- The reading, and another where it ends if it did not fail. -/
def bind (o : Outcome α n)
    (k : α → (s : Reader) → s.rest.length < n → Outcome β s.rest.length) : Outcome β n :=
  match o with
  | ok a s h => (k a s h).past h
  | fail s h => fail s h

/-- The reading of a node, which is given the next number. -/
def number (o : Outcome (ExprId → Expr) n) : Outcome Expr n :=
  match o with
  | ok node s h => ok (node s.nextId) { s with nextId := s.nextId + 1 } h
  | fail s h    => fail s h

end Outcome

namespace Reader

/-- Before the first token of a list.  What follows an `eof` is not read; a list without one is
ended where its last token stands. -/
def ofTokens (ts : List Token) : Reader where
  last := .eof
  rest := ts.takeWhile fun t => t.kind ≠ .eof
  stop := (ts.find? fun t => t.kind = .eof).getD
    (.endOfInput ((ts.getLast?.map Token.span).getD .none))
  nextId := 0
  found := []

/-- The token that comes next. -/
def current (r : Reader) : Token := r.rest.head?.getD r.stop

/-- The kind of the token that comes next. -/
def peek (r : Reader) : Kind := r.current.kind

/-- Past the next token; at the end, nowhere. -/
def advance (r : Reader) : Reader :=
  match r.rest with
  | []      => r
  | t :: ts => { r with last := t.kind, rest := ts }

/-- With `error` found at `loc`. -/
def report (r : Reader) (error : SyntaxError) (loc : Span) : Reader :=
  { r with found := r.found ++ [.syntaxError error loc] }

theorem advance_rest (r : Reader) : r.advance.rest = r.rest.tail := by
  unfold advance
  split <;> simp_all

@[simp] theorem report_rest (r : Reader) (error : SyntaxError) (loc : Span) :
    (r.report error loc).rest = r.rest := rfl

theorem length_advance_lt {r : Reader} (h : r.rest ≠ []) :
    r.advance.rest.length < r.rest.length := by
  rw [advance_rest, List.length_tail]
  have := List.length_pos_iff.mpr h
  omega

theorem length_advance_le (r : Reader) : r.advance.rest.length ≤ r.rest.length := by
  rw [advance_rest, List.length_tail]
  omega

/-- The next token and the reader past it. -/
def next? (r : Reader) : Option (Token × { s : Reader // s.rest.length < r.rest.length }) :=
  if h : r.rest = [] then none else some (r.current, ⟨r.advance, length_advance_lt h⟩)

/-- Nothing comes next exactly at the end. -/
theorem next?_eq_none_iff {r : Reader} : r.next? = none ↔ r.rest = [] := by
  unfold next?
  split <;> simp_all

/-- The next token is the first of those to come, and the reader past it is `advance`. -/
theorem next?_eq_some {r : Reader} {t : Token}
    {s : { s : Reader // s.rest.length < r.rest.length }} (h : r.next? = some (t, s)) :
    r.rest = t :: s.val.rest ∧ s.val = r.advance := by
  unfold next? at h
  split at h
  · cases h
  · obtain ⟨t', ts, hr⟩ := List.exists_cons_of_ne_nil ‹r.rest ≠ []›
    cases h
    simp [current, advance_rest, hr]

/-- A failure: `what` was looked for and something else comes next. -/
def failExpected {α : Type} (what : Expected) (r : Reader) : Outcome α r.rest.length :=
  .fail (r.report (.expected what r.peek) r.current.span) (Nat.le_refl _)

/-- Past the next token, which has to be of the kind. -/
def expect (kind : Kind) (r : Reader) : Outcome Token r.rest.length :=
  match r.next? with
  | some (t, ⟨s, h⟩) => if t.kind = kind then .ok t s h else r.failExpected (.token kind)
  | none             => r.failExpected (.token kind)

/-- Past the next token, if it is of the kind. -/
def eat? (kind : Kind) (r : Reader) : Option { s : Reader // s.rest.length < r.rest.length } :=
  match r.next? with
  | some (t, s) => if t.kind = kind then some s else none
  | none        => none

/-- The kinds at which a statement starts or a block ends. -/
def boundaries : List Kind :=
  [.kwVar, .kwReturn, .kwIf, .kwWhile, .kwElse, .kwEnd, .kwDef]

/-- To where a statement may start after a failed one: past a `;`, or before a boundary. -/
def toBoundary (r : Reader) : Reader :=
  match _h : r.rest with
  | []     => r
  | t :: _ => if r.last = .semicolon ∨ t.kind ∈ boundaries then r else toBoundary r.advance
termination_by r.rest.length
decreasing_by exact length_advance_lt (by simp [*])

/-- To the next `def`. -/
def toDef (r : Reader) : Reader :=
  match _h : r.rest with
  | []     => r
  | t :: _ => if t.kind = .kwDef then r else toDef r.advance
termination_by r.rest.length
decreasing_by exact length_advance_lt (by simp [*])

theorem length_toBoundary_le (r : Reader) : r.toBoundary.rest.length ≤ r.rest.length := by
  fun_induction toBoundary r with
  | case1 | case2 => exact Nat.le_refl _
  | case3 r t ts h hb ih => exact Nat.le_trans ih (length_advance_le r)

theorem length_toDef_le (r : Reader) : r.toDef.rest.length ≤ r.rest.length := by
  fun_induction toDef r with
  | case1 | case2 => exact Nat.le_refl _
  | case3 r t ts h hd ih => exact Nat.le_trans ih (length_advance_le r)

end Reader

end ProcScript
