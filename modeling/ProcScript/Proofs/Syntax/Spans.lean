import ProcScript.Proofs.Check.Preorder

/-!
# Syntax — the places of a tree

The spans of the nodes of a tree, as lists: of an expression and all in it, of a statement
itself, and, along the statements in the order in which they are met, of a block, a procedure
and a script.  The types that are written in a script stand at spans among them
(`Script.span_mem_spans`).
-/

namespace ProcScript

/-- The spans of the expression and of all in it. -/
def Expr.spans : Expr → List Span
  | .var _ _ span               => [span]
  | .bool _ _ span              => [span]
  | .int _ _ span               => [span]
  | .binary _ left right _ span => span :: (left.spans ++ right.spans)
  | .unary _ operand _ span     => span :: operand.spans
  | .paren inner _ span         => span :: inner.spans

theorem Expr.span_mem_spans (e : Expr) : e.span ∈ e.spans := by
  cases e <;> simp [Expr.span, Expr.spans]

/-- The types written in the statement itself, those of the statements inside it left aside. -/
def Stmt.ownTypeNames : Stmt → List TypeName
  | .varDef _ typeName _ _ => [typeName]
  | .ret .. | .call .. | .assign .. | .ifThen .. | .ifElse .. | .whileDo .. => []

/-- The spans of the statement itself, of its types and of its expressions. -/
def Stmt.ownSpans (s : Stmt) : List Span :=
  s.span :: (s.ownTypeNames.map TypeName.span ++ s.exprs.flatMap Expr.spans)

/-- The spans of the statement and of those inside it. -/
def Stmt.spans (s : Stmt) : List Span := s.preorder.flatMap Stmt.ownSpans

/-- The spans of the statements of a block and of those inside them. -/
def Block.spans (ss : List Stmt) : List Span := (Block.preorder ss).flatMap Stmt.ownSpans

def Param.spans (q : Param) : List Span := [q.span, q.typeName.span]

def Procedure.spans (p : Procedure) : List Span :=
  p.span :: p.returns.span :: (p.params.flatMap Param.spans ++ Block.spans p.body)

/-- The spans of the procedures of a script. -/
def Script.spans (s : Script) : List Span := s.procedures.flatMap Procedure.spans

@[simp] theorem Block.spans_nil : Block.spans [] = [] := rfl

@[simp] theorem Block.spans_cons (s : Stmt) (ss : List Stmt) :
    Block.spans (s :: ss) = s.spans ++ Block.spans ss := by
  rw [Block.spans, Block.preorder, List.flatMap_append, Stmt.spans, Block.spans]

/-- Its own span, then the spans of what stands in it. -/
theorem Stmt.spans_eq (s : Stmt) : s.spans = s.span ::
    match s with
    | .varDef _ typeName init _ => typeName.span :: init.toList.flatMap Expr.spans
    | .ret value _ => value.toList.flatMap Expr.spans
    | .call _ args _ => args.flatMap Expr.spans
    | .assign _ value _ => value.spans
    | .ifThen condition body _ | .whileDo condition body _ => condition.spans ++ Block.spans body
    | .ifElse condition body other _ =>
        condition.spans ++ (Block.spans body ++ Block.spans other) := by
  cases s <;>
    simp [Stmt.spans, Block.spans, Stmt.preorder, Stmt.ownSpans, Stmt.ownTypeNames, Stmt.exprs]

theorem Stmt.span_mem_ownSpans (s : Stmt) : s.span ∈ s.ownSpans := List.mem_cons_self

theorem Stmt.span_expr_mem_ownSpans {s : Stmt} {e : Expr} (h : e ∈ s.exprs) :
    e.span ∈ s.ownSpans :=
  List.mem_cons_of_mem _
    (List.mem_append_right _ (List.mem_flatMap.mpr ⟨e, h, e.span_mem_spans⟩))

/-- A statement of a block is among those that are met. -/
theorem Block.mem_preorder {s : Stmt} {ss : List Stmt} (h : s ∈ ss) : s ∈ Block.preorder ss := by
  induction ss with
  | nil => cases h
  | cons t ss ih =>
      rw [Block.preorder]
      rcases List.mem_cons.mp h with rfl | h
      · obtain ⟨inner, hs⟩ := s.preorder_eq_cons
        rw [hs]
        exact List.mem_append_left _ List.mem_cons_self
      · exact List.mem_append_right _ (ih h)

mutual

/-- The types in a statement, gathered along the list. -/
theorem Stmt.typeNames_eq_flatMap :
    ∀ s : Stmt, s.typeNames = s.preorder.flatMap Stmt.ownTypeNames
  | .varDef .. | .ret .. | .call .. | .assign .. => by
      simp [Stmt.typeNames, Stmt.preorder, Stmt.ownTypeNames]
  | .ifThen _ body _ | .whileDo _ body _ => by
      simp [Stmt.typeNames, Stmt.preorder, Stmt.ownTypeNames, Block.typeNames_eq_flatMap body]
  | .ifElse _ body other _ => by
      simp [Stmt.typeNames, Stmt.preorder, Stmt.ownTypeNames, Block.typeNames_eq_flatMap body,
        Block.typeNames_eq_flatMap other]

theorem Block.typeNames_eq_flatMap :
    ∀ ss : List Stmt, Block.typeNames ss = (Block.preorder ss).flatMap Stmt.ownTypeNames
  | [] => rfl
  | s :: ss => by
      simp only [Block.typeNames, Block.preorder, List.flatMap_append, Stmt.typeNames_eq_flatMap s,
        Block.typeNames_eq_flatMap ss]

end

/-- A type that is written in a procedure stands at a place of it. -/
theorem Procedure.span_mem_spans {p : Procedure} {a : TypeName} (h : a ∈ p.typeNames) :
    a.span ∈ p.spans := by
  rw [typeNames, List.mem_append, List.mem_append, List.mem_singleton] at h
  rw [spans, List.mem_cons, List.mem_cons, List.mem_append]
  rcases h with (h | rfl) | h
  · obtain ⟨q, hq, rfl⟩ := List.mem_map.mp h
    exact .inr (.inr (.inl (List.mem_flatMap.mpr ⟨q, hq, by simp [Param.spans]⟩)))
  · exact .inr (.inl rfl)
  · rw [Block.typeNames_eq_flatMap] at h
    obtain ⟨s, hs, ha⟩ := List.mem_flatMap.mp h
    have hown : a.span ∈ s.ownSpans :=
      List.mem_cons_of_mem _ (List.mem_append_left _ (List.mem_map_of_mem ha))
    exact .inr (.inr (.inr (List.mem_flatMap.mpr ⟨s, hs, hown⟩)))

/-- A type that is written in a script stands at a place of it. -/
theorem Script.span_mem_spans {s : Script} {a : TypeName} (h : a ∈ s.typeNames) :
    a.span ∈ s.spans := by
  obtain ⟨p, hp, ha⟩ := List.mem_flatMap.mp h
  exact List.mem_flatMap.mpr ⟨p, hp, Procedure.span_mem_spans ha⟩

end ProcScript
