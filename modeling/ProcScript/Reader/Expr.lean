import ProcScript.Reader
import ProcScript.Text.Numeral

/-!
# ProcScript — Reader — Expr

Expressions from tokens, by precedence.  An operator between two operands has a level from 1 to
6, and a higher level holds its operands tighter; operators of one level group to the left.
`-` and `not` before an operand hold it tighter than any of these.  A node is numbered when it
is complete, so operands have smaller numbers than what they belong to.
-/

namespace ProcScript

/-- The level of the operator that a token stands for between two operands, and the operator. -/
def Kind.binaryOp? : Kind → Option (Nat × BinaryOp)
  | .kwOr         => some (1, .or)
  | .kwAnd        => some (2, .and)
  | .equalEqual   => some (3, .eq)
  | .bangEqual    => some (3, .neq)
  | .less         => some (4, .lt)
  | .greater      => some (4, .gt)
  | .lessEqual    => some (4, .ltEq)
  | .greaterEqual => some (4, .gtEq)
  | .plus         => some (5, .add)
  | .minus        => some (5, .sub)
  | .star         => some (6, .mul)
  | .slash        => some (6, .div)
  | _             => none

namespace Reader

/-- A level above that of every operator between two operands. -/
def tightest : Nat := 7

/-- The integer literal `t`, which was just passed; one out of range is reported and reads as 0. -/
def literal (t : Token) {n : Nat} (r : Reader) (h : r.rest.length < n) : Outcome Int32 n :=
  match Text.int32? t.lexeme with
  | some value => .ok value r h
  | none       => .ok 0 (r.report (.outOfRange t.lexeme) t.span) h

/-- The variable `t`, which was just passed; with a `(` behind it, it is a call and no value. -/
def variableName (t : Token) {n : Nat} (r : Reader) (h : r.rest.length < n) : Outcome String n :=
  if r.peek = .leftParen then
    .fail (r.report (.callAsValue t.lexeme) (t.span.merge r.current.span)) (Nat.le_of_lt h)
  else .ok t.lexeme r h

mutual

/-- An expression whose outer operators have level `min` at least. -/
def expr (min : Nat) (r : Reader) : Outcome Expr r.rest.length :=
  match r.operand with
  | .ok left s h => (s.operators min left).mono h
  | .fail s h    => .fail s h
termination_by 2 * r.rest.length + 1

/-- The operators of level `min` at least that follow `left`, with their right operands. -/
def operators (min : Nat) (left : Expr) (r : Reader) : Outcome Expr (r.rest.length + 1) :=
  match r.next? with
  | none => .ok left r (Nat.lt_succ_self _)
  | some (t, ⟨s, hs⟩) =>
    match t.kind.binaryOp? with
    | none => .ok left r (Nat.lt_succ_self _)
    | some (level, op) =>
      if level < min then .ok left r (Nat.lt_succ_self _)
      else
        match ((s.expr (level + 1)).map fun right id =>
            .binary op left right id (left.span.merge right.span)).number with
        | .ok e s' h => (s'.operators min e).mono (by omega)
        | .fail s' h => .fail s' (by omega)
termination_by 2 * r.rest.length

/-- A literal, a variable, an expression in parentheses, or an operand behind `-` or `not`. -/
def operand (r : Reader) : Outcome Expr r.rest.length :=
  match r.next? with
  | none => r.failExpected .expression
  | some (t, ⟨s, hs⟩) =>
    match t.kind with
    | .intLiteral => ((literal t s hs).map fun value id => .int value id t.span).number
    | .kwTrue     => (Outcome.ok (fun id => .bool true id t.span) s hs).number
    | .kwFalse    => (Outcome.ok (fun id => .bool false id t.span) s hs).number
    | .identifier => ((variableName t s hs).map fun name id => .var name id t.span).number
    | .minus      => (((s.expr tightest).map fun e id =>
        .unary .neg e id (t.span.merge e.span)).number).past hs
    | .kwNot      => (((s.expr tightest).map fun e id =>
        .unary .not e id (t.span.merge e.span)).number).past hs
    | .leftParen  => (((s.expr 1).bind fun e s' _ => (s'.expect .rightParen).map fun close id =>
        .paren e id (t.span.merge close.span)).number).past hs
    | _           => r.failExpected .expression
termination_by 2 * r.rest.length

end

/-- An expression. -/
def expression (r : Reader) : Outcome Expr r.rest.length := r.expr 1

/-- Expressions between commas, one at least, and the `)` behind them. -/
def expressions (r : Reader) : Outcome (List Expr) r.rest.length :=
  r.expression.bind fun e s _ =>
    match s.eat? .comma with
    | some ⟨s', h'⟩ => (s'.expressions.map (e :: ·)).past h'
    | none          => (s.expect .rightParen).map fun _ => [e]
termination_by r.rest.length

/-- The arguments of a call, behind its `(`, and the `)` behind them. -/
def arguments (r : Reader) : Outcome (List Expr) r.rest.length :=
  if r.peek = .rightParen then (r.expect .rightParen).map fun _ => [] else r.expressions

end Reader

end ProcScript
