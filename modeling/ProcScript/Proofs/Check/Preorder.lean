import ProcScript.Check

/-!
# Check — statements in the order in which they are met

`Block.preorder` lists the statements of a block, each before those inside it, the first branch
of an `if` before the second.  Checking a block is visiting the statements of that list one
after the other (`block_eq_foldl`): no rule looks at how deep a statement stands.  A visit
(`Checking.visit`) finds the types of the expressions of the statement itself and then applies
its rule (`Checking.judge`), which records no type.
-/

namespace ProcScript

/-! ### The list -/

mutual

/-- A statement and those inside it. -/
def Stmt.preorder : Stmt → List Stmt
  | .varDef name typeName init span  => [.varDef name typeName init span]
  | .ret value span                  => [.ret value span]
  | .call callee args span           => [.call callee args span]
  | .assign target value span        => [.assign target value span]
  | .ifThen condition body span      => .ifThen condition body span :: Block.preorder body
  | .ifElse condition body other span =>
      .ifElse condition body other span :: (Block.preorder body ++ Block.preorder other)
  | .whileDo condition body span     => .whileDo condition body span :: Block.preorder body

/-- The statements of a block and those inside them. -/
def Block.preorder : List Stmt → List Stmt
  | []      => []
  | s :: ss => s.preorder ++ Block.preorder ss

end

/-- The expressions of the statement itself, those of the statements inside it left aside. -/
def Stmt.exprs : Stmt → List Expr
  | .varDef _ _ init _       => init.toList
  | .ret value _             => value.toList
  | .call _ args _           => args
  | .assign _ value _        => [value]
  | .ifThen condition _ _    => [condition]
  | .ifElse condition _ _ _  => [condition]
  | .whileDo condition _ _   => [condition]

/-- The numbers of those expressions and of all in them. -/
def Stmt.ownIds (s : Stmt) : List ExprId := s.exprs.flatMap Expr.ids

/-- A statement comes before those inside it. -/
theorem Stmt.preorder_eq_cons (s : Stmt) : ∃ inner, s.preorder = s :: inner := by
  cases s <;> exact ⟨_, rfl⟩

mutual

/-- The numbers in a statement, gathered along the list. -/
theorem Stmt.exprIds_eq_flatMap : ∀ s : Stmt, s.exprIds = s.preorder.flatMap Stmt.ownIds
  | .varDef _ _ none _ | .varDef _ _ (some _) _ | .ret none _ | .ret (some _) _ | .call _ _ _
  | .assign _ _ _ => by simp [Stmt.exprIds, Stmt.preorder, Stmt.ownIds, Stmt.exprs]
  | .ifThen _ body _ | .whileDo _ body _ => by
      simp [Stmt.exprIds, Stmt.preorder, Stmt.ownIds, Stmt.exprs, Block.exprIds_eq_flatMap body]
  | .ifElse _ body other _ => by
      simp [Stmt.exprIds, Stmt.preorder, Stmt.ownIds, Stmt.exprs, Block.exprIds_eq_flatMap body,
        Block.exprIds_eq_flatMap other]

theorem Block.exprIds_eq_flatMap :
    ∀ ss : List Stmt, Block.exprIds ss = (Block.preorder ss).flatMap Stmt.ownIds
  | [] => rfl
  | s :: ss => by
      simp only [Block.exprIds, Block.preorder, List.flatMap_append, Stmt.exprIds_eq_flatMap s,
        Block.exprIds_eq_flatMap ss]

end

/-! ### Checking along the list -/

namespace Checking

/-- The rule of a statement, once the types of its expressions are known. -/
def judge (c : Checking) : Stmt → Checking
  | .varDef name typeName init span =>
      match c.declare (.var name typeName.ty span init.isSome) .variable with
      | (true, c)  => init.elim c fun e => c.require typeName.ty e.id e.span
      | (false, c) => c
  | .assign target value _ =>
      match c.varType? target with
      | none      => c
      | some type =>
          let c := c.require type value.id value.span
          { c with scope := c.scope.markInitialized target }
  | .call callee args span =>
      if c.scope.contains callee then c
      else
        match c.procedures.find? callee with
        | none   => c.report (.noSuchSymbol callee span)
        | some p =>
            if p.arity ≠ args.length then c.report (.argCountMismatch p.arity args.length span)
            else (p.params.zip args).foldl (fun c arg => c.require arg.1.type arg.2.id span) c
  | .ret .. | .ifThen .. | .ifElse .. | .whileDo .. => c

/-- A statement, the blocks in it left aside. -/
def visit (c : Checking) (s : Stmt) : Checking := (c.resolveAll s.exprs).judge s

mutual

theorem stmt_eq_foldl (c : Checking) : ∀ s : Stmt, c.stmt s = s.preorder.foldl visit c
  | .varDef .. | .ret .. | .call .. | .assign .. => by
      simp only [stmt, Stmt.preorder, List.foldl_cons, List.foldl_nil]; rfl
  | .ifThen _ body _ | .whileDo _ body _ => by
      simp only [stmt, Stmt.preorder, List.foldl_cons, block_eq_foldl _ body]; rfl
  | .ifElse _ body other _ => by
      simp only [stmt, Stmt.preorder, List.foldl_cons, List.foldl_append, block_eq_foldl _ body,
        block_eq_foldl _ other]; rfl

/-- **Checking a block is visiting its statements in order.** -/
theorem block_eq_foldl (c : Checking) :
    ∀ ss : List Stmt, c.block ss = (Block.preorder ss).foldl visit c
  | [] => rfl
  | s :: ss => by
      simp only [block, Block.preorder, List.foldl_append, stmt_eq_foldl c s, block_eq_foldl _ ss]

end

end Checking

end ProcScript
