import ProcScript.Span

/-!
# ProcScript — Expr

Expressions as trees.  Every node has a number, its `ExprId`, under which facts about it are
kept, and a span.  Parentheses are nodes of their own.
-/

namespace ProcScript

/-- The number of an expression. -/
abbrev ExprId := UInt32

/-- The operators between two operands. -/
inductive BinaryOp where
  | add
  | sub
  | mul
  | div
  | eq
  | neq
  | lt
  | gt
  | ltEq
  | gtEq
  | and
  | or
  deriving DecidableEq, Inhabited

/-- The operators before one operand. -/
inductive UnaryOp where
  | neg
  | not
  deriving DecidableEq, Inhabited

/-- An expression. -/
inductive Expr where
  | var (name : String) (id : ExprId) (span : Span)
  | bool (value : Bool) (id : ExprId) (span : Span)
  | int (value : Int32) (id : ExprId) (span : Span)
  | binary (op : BinaryOp) (left right : Expr) (id : ExprId) (span : Span)
  | unary (op : UnaryOp) (operand : Expr) (id : ExprId) (span : Span)
  | paren (inner : Expr) (id : ExprId) (span : Span)
  deriving DecidableEq, Inhabited

namespace Expr

/-- The number of the whole expression. -/
def id : Expr → ExprId
  | var _ id _        => id
  | bool _ id _       => id
  | int _ id _        => id
  | binary _ _ _ id _ => id
  | unary _ _ id _    => id
  | paren _ id _      => id

/-- The span of the whole expression. -/
def span : Expr → Span
  | var _ _ span        => span
  | bool _ _ span       => span
  | int _ _ span        => span
  | binary _ _ _ _ span => span
  | unary _ _ _ span    => span
  | paren _ _ span      => span

/-- The numbers of the expression and of all in it, operands before what they belong to. -/
def ids : Expr → List ExprId
  | var _ id _             => [id]
  | bool _ id _            => [id]
  | int _ id _             => [id]
  | binary _ left right id _ => left.ids ++ right.ids ++ [id]
  | unary _ operand id _   => operand.ids ++ [id]
  | paren inner id _       => inner.ids ++ [id]

end Expr

end ProcScript
