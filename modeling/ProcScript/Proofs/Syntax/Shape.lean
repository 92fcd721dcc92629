import ProcScript.Proofs.Check.Preorder
import ProcScript.Reader.Expr

/-!
# Syntax — the shape of a tree

What a tree is apart from where it stands: `Expr.bare` and its likes for statements, procedures
and scripts put one number and one span in place of all.  `Expr.Nested` says that an expression
needs no parentheses but those it has: the operands of an operator hold together at least as
tightly as the operator asks, on the left at its own level, on the right above it.
-/

namespace ProcScript

/-! ### Bare trees -/

/-- The expression without its numbers and spans. -/
def Expr.bare : Expr → Expr
  | .var name _ _             => .var name 0 .none
  | .bool value _ _           => .bool value 0 .none
  | .int value _ _            => .int value 0 .none
  | .binary op left right _ _ => .binary op left.bare right.bare 0 .none
  | .unary op operand _ _     => .unary op operand.bare 0 .none
  | .paren inner _ _          => .paren inner.bare 0 .none

def TypeName.bare (a : TypeName) : TypeName := ⟨a.name, .none⟩

def Param.bare (q : Param) : Param := ⟨q.name, q.typeName.bare, .none⟩

mutual

/-- The statement without its numbers and spans. -/
def Stmt.bare : Stmt → Stmt
  | .varDef name typeName init _   => .varDef name typeName.bare (init.map Expr.bare) .none
  | .ret value _                   => .ret (value.map Expr.bare) .none
  | .call callee args _            => .call callee (args.map Expr.bare) .none
  | .assign target value _         => .assign target value.bare .none
  | .ifThen condition body _       => .ifThen condition.bare (Block.bare body) .none
  | .ifElse condition body other _ =>
      .ifElse condition.bare (Block.bare body) (Block.bare other) .none
  | .whileDo condition body _      => .whileDo condition.bare (Block.bare body) .none

def Block.bare : List Stmt → List Stmt
  | []      => []
  | s :: ss => s.bare :: Block.bare ss

end

theorem Block.bare_append (ss ss' : List Stmt) :
    Block.bare (ss ++ ss') = Block.bare ss ++ Block.bare ss' := by
  induction ss with
  | nil => rfl
  | cons s ss ih => rw [List.cons_append, Block.bare, Block.bare, ih, List.cons_append]

def Procedure.bare (p : Procedure) : Procedure :=
  ⟨p.name, p.params.map Param.bare, p.returns.bare, Block.bare p.body, .none⟩

/-- The script without its numbers and spans. -/
def Script.bare (s : Script) : Script := ⟨s.source, s.procedures.map Procedure.bare, .none⟩

/-! ### Precedence -/

/-- How tight an operator holds its operands. -/
def BinaryOp.level : BinaryOp → Nat
  | .or                         => 1
  | .and                        => 2
  | .eq | .neq                  => 3
  | .lt | .gt | .ltEq | .gtEq   => 4
  | .add | .sub                 => 5
  | .mul | .div                 => 6

theorem BinaryOp.one_le_level (op : BinaryOp) : 1 ≤ op.level := by
  cases op <;> decide

theorem BinaryOp.level_lt_tightest (op : BinaryOp) : op.level < Reader.tightest := by
  cases op <;> decide

/-- How tight the outermost operator holds, if it stands between two operands. -/
def Expr.level : Expr → Nat
  | .binary op _ _ _ _ => op.level
  | _                  => Reader.tightest

theorem Expr.one_le_level (e : Expr) : 1 ≤ e.level := by
  cases e with
  | binary op _ _ _ _ => exact op.one_le_level
  | _ => exact (by decide : 1 ≤ Reader.tightest)

/-- Operands hold together as tightly as their operators ask. -/
def Expr.Nested : Expr → Prop
  | .binary op left right _ _ =>
      op.level ≤ left.level ∧ op.level < right.level ∧ left.Nested ∧ right.Nested
  | .unary _ operand _ _ => operand.level = Reader.tightest ∧ operand.Nested
  | .paren inner _ _ => inner.Nested
  | .var .. | .bool .. | .int .. => True

instance Expr.decidableNested : (e : Expr) → Decidable e.Nested
  | .binary _ left right _ _ =>
      have := left.decidableNested
      have := right.decidableNested
      inferInstanceAs (Decidable (_ ∧ _ ∧ _ ∧ _))
  | .unary _ operand _ _ =>
      have := operand.decidableNested
      inferInstanceAs (Decidable (_ ∧ _))
  | .paren inner _ _ => inner.decidableNested
  | .var .. | .bool .. | .int .. => .isTrue trivial

/-- The expressions of the statement and of those inside it are nested. -/
def Stmt.Nested (s : Stmt) : Prop := ∀ t ∈ s.preorder, ∀ e ∈ t.exprs, e.Nested

def Block.Nested (ss : List Stmt) : Prop := ∀ t ∈ Block.preorder ss, ∀ e ∈ t.exprs, e.Nested

/-- Every expression of the script is nested. -/
def Script.Nested (s : Script) : Prop := ∀ p ∈ s.procedures, Block.Nested p.body

instance (ss : List Stmt) : Decidable (Block.Nested ss) :=
  inferInstanceAs (Decidable (∀ t ∈ Block.preorder ss, ∀ e ∈ t.exprs, e.Nested))

instance (s : Script) : Decidable s.Nested :=
  inferInstanceAs (Decidable (∀ p ∈ s.procedures, Block.Nested p.body))

section
variable {e : Expr} {es : List Expr} {body other : List Stmt} {name : String} {span : Span}

theorem Stmt.nested_varDef {typeName : TypeName} {init : Option Expr} :
    (Stmt.varDef name typeName init span).Nested ↔ ∀ e ∈ init, e.Nested := by
  simp [Stmt.Nested, Stmt.preorder, Stmt.exprs]

theorem Stmt.nested_ret {value : Option Expr} :
    (Stmt.ret value span).Nested ↔ ∀ e ∈ value, e.Nested := by
  simp [Stmt.Nested, Stmt.preorder, Stmt.exprs]

theorem Stmt.nested_call : (Stmt.call name es span).Nested ↔ ∀ e ∈ es, e.Nested := by
  simp [Stmt.Nested, Stmt.preorder, Stmt.exprs]

theorem Stmt.nested_assign : (Stmt.assign name e span).Nested ↔ e.Nested := by
  simp [Stmt.Nested, Stmt.preorder, Stmt.exprs]

theorem Stmt.nested_ifThen :
    (Stmt.ifThen e body span).Nested ↔ e.Nested ∧ Block.Nested body := by
  simp [Stmt.Nested, Block.Nested, Stmt.preorder, Stmt.exprs]

theorem Stmt.nested_ifElse : (Stmt.ifElse e body other span).Nested ↔
    e.Nested ∧ Block.Nested body ∧ Block.Nested other := by
  simp [Stmt.Nested, Block.Nested, Stmt.preorder, Stmt.exprs, or_imp, forall_and]

theorem Stmt.nested_whileDo :
    (Stmt.whileDo e body span).Nested ↔ e.Nested ∧ Block.Nested body := by
  simp [Stmt.Nested, Block.Nested, Stmt.preorder, Stmt.exprs]

end

theorem Block.nested_cons {s : Stmt} {ss : List Stmt} :
    Block.Nested (s :: ss) ↔ s.Nested ∧ Block.Nested ss := by
  simp only [Block.Nested, Stmt.Nested, Block.preorder, List.forall_mem_append]

theorem Block.nested_append {ss ss' : List Stmt} :
    Block.Nested (ss ++ ss') ↔ Block.Nested ss ∧ Block.Nested ss' := by
  induction ss with
  | nil => simp [Block.Nested, Block.preorder]
  | cons s ss ih => rw [List.cons_append, nested_cons, nested_cons, ih, and_assoc]

end ProcScript
