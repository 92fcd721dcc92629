import ProcScript.Expr
import ProcScript.Ty

/-!
# ProcScript — Script

Scripts as trees: procedures with parameters and a body, whose statements may hold blocks of
statements.  A type is kept as it was written, a `TypeName`, and may name no type at all.  An
`if` without `else` and an `if` with an empty `else` are different statements.
-/

namespace ProcScript

/-- A type as it was written. -/
structure TypeName where
  name : String
  span : Span
  deriving DecidableEq, Inhabited

/-- The type that is meant, if there is one of that name. -/
def TypeName.ty? (a : TypeName) : Option Ty := Ty.ofName? a.name

/-- The type that is meant; `error` if there is none of that name. -/
def TypeName.ty (a : TypeName) : Ty := a.ty?.getD .error

/-- A parameter of a procedure. -/
structure Param where
  name : String
  typeName : TypeName
  span : Span
  deriving DecidableEq, Inhabited

/-- A statement. -/
inductive Stmt where
  | varDef (name : String) (typeName : TypeName) (init : Option Expr) (span : Span)
  | ret (value : Option Expr) (span : Span)
  | call (callee : String) (args : List Expr) (span : Span)
  | assign (target : String) (value : Expr) (span : Span)
  | ifThen (condition : Expr) (body : List Stmt) (span : Span)
  | ifElse (condition : Expr) (body orElse : List Stmt) (span : Span)
  | whileDo (condition : Expr) (body : List Stmt) (span : Span)
  deriving Inhabited

namespace Stmt

def span : Stmt → Span
  | varDef _ _ _ span => span
  | ret _ span        => span
  | call _ _ span     => span
  | assign _ _ span   => span
  | ifThen _ _ span   => span
  | ifElse _ _ _ span => span
  | whileDo _ _ span  => span

def isReturn : Stmt → Bool
  | ret .. => true
  | _      => false

end Stmt

/-- A procedure. -/
structure Procedure where
  name : String
  params : List Param
  returns : TypeName
  body : List Stmt
  span : Span
  deriving Inhabited

/-- A script, named after where its text is from. -/
structure Script where
  source : String
  procedures : List Procedure
  span : Span
  deriving Inhabited

/-! ### What a tree holds -/

mutual

/-- The numbers of the expressions in a statement, in the order in which they were written. -/
def Stmt.exprIds : Stmt → List ExprId
  | .varDef _ _ init _             => init.elim [] Expr.ids
  | .ret value _                   => value.elim [] Expr.ids
  | .call _ args _                 => args.flatMap Expr.ids
  | .assign _ value _              => value.ids
  | .ifThen condition body _       => condition.ids ++ Block.exprIds body
  | .ifElse condition body other _ => condition.ids ++ Block.exprIds body ++ Block.exprIds other
  | .whileDo condition body _      => condition.ids ++ Block.exprIds body

/-- The numbers of the expressions in a block. -/
def Block.exprIds : List Stmt → List ExprId
  | []      => []
  | s :: ss => s.exprIds ++ Block.exprIds ss

end

mutual

/-- The types written in a statement, in the order in which they were written. -/
def Stmt.typeNames : Stmt → List TypeName
  | .varDef _ typeName _ _ => [typeName]
  | .ret ..                  => []
  | .call ..                 => []
  | .assign ..               => []
  | .ifThen _ body _         => Block.typeNames body
  | .ifElse _ body other _   => Block.typeNames body ++ Block.typeNames other
  | .whileDo _ body _        => Block.typeNames body

/-- The types written in a block. -/
def Block.typeNames : List Stmt → List TypeName
  | []      => []
  | s :: ss => s.typeNames ++ Block.typeNames ss

end

mutual

/-- The names called in a statement, in the order in which they were written. -/
def Stmt.callees : Stmt → List String
  | .varDef ..             => []
  | .ret ..                => []
  | .call callee _ _       => [callee]
  | .assign ..             => []
  | .ifThen _ body _       => Block.callees body
  | .ifElse _ body other _ => Block.callees body ++ Block.callees other
  | .whileDo _ body _      => Block.callees body

/-- The names called in a block. -/
def Block.callees : List Stmt → List String
  | []      => []
  | s :: ss => s.callees ++ Block.callees ss

end

/-- The types written in a procedure: those of the parameters, of the result, of the variables. -/
def Procedure.typeNames (p : Procedure) : List TypeName :=
  p.params.map Param.typeName ++ [p.returns] ++ Block.typeNames p.body

/-- The types written in a script. -/
def Script.typeNames (s : Script) : List TypeName :=
  s.procedures.flatMap Procedure.typeNames

/-- The numbers of the expressions in a script. -/
def Script.exprIds (s : Script) : List ExprId :=
  s.procedures.flatMap fun p => Block.exprIds p.body

end ProcScript
