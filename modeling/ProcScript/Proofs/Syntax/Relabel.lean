import ProcScript.Diagnostic
import ProcScript.Script
import ProcScript.Token

/-!
# Syntax — other spans and other numbers

A tree says what it says under any spans and any numbers.  A `Labelling` maps both, and
`Expr.relabel` and its likes put them in place of those a tree has.  `Labelling.unplaced` forgets
where a tree stood and keeps its numbers; `Labelling.shift` keeps the places and counts the
numbers from another one on.  A reader merges spans and counts numbers up, and a labelling goes
along with both.
-/

namespace ProcScript

/-- What to put for the spans and for the expression numbers of a tree. -/
structure Labelling where
  span : Span → Span
  id : ExprId → ExprId
  merge : ∀ a b, span (a.merge b) = (span a).merge (span b)
  next : ∀ i, id (i + 1) = id i + 1

namespace Labelling

/-- The same places and the same numbers. -/
def same : Labelling where
  span := fun s => s
  id := fun i => i
  merge := fun _ _ => rfl
  next := fun _ => rfl

/-- No places, and the same numbers. -/
def unplaced : Labelling where
  span := fun _ => .none
  id := fun i => i
  merge := fun _ _ => rfl
  next := fun _ => rfl

/-- The same places, and numbers that are greater by `k`. -/
def shift (k : ExprId) : Labelling where
  span := fun s => s
  id := fun i => i + k
  merge := fun _ _ => rfl
  next := fun i => by rw [UInt32.add_assoc, UInt32.add_comm 1 k, UInt32.add_assoc]

end Labelling

def Token.relabel (m : Labelling) (t : Token) : Token := ⟨t.kind, t.lexeme, m.span t.span⟩

/-! ### Trees -/

def Expr.relabel (m : Labelling) : Expr → Expr
  | .var name id span             => .var name (m.id id) (m.span span)
  | .bool value id span           => .bool value (m.id id) (m.span span)
  | .int value id span            => .int value (m.id id) (m.span span)
  | .binary op left right id span =>
      .binary op (left.relabel m) (right.relabel m) (m.id id) (m.span span)
  | .unary op operand id span     => .unary op (operand.relabel m) (m.id id) (m.span span)
  | .paren inner id span          => .paren (inner.relabel m) (m.id id) (m.span span)

def TypeName.relabel (m : Labelling) (a : TypeName) : TypeName := ⟨a.name, m.span a.span⟩

def Param.relabel (m : Labelling) (q : Param) : Param :=
  ⟨q.name, q.typeName.relabel m, m.span q.span⟩

mutual

def Stmt.relabel (m : Labelling) : Stmt → Stmt
  | .varDef name typeName init span   =>
      .varDef name (typeName.relabel m) (init.map (Expr.relabel m)) (m.span span)
  | .ret value span                   => .ret (value.map (Expr.relabel m)) (m.span span)
  | .call callee args span            => .call callee (args.map (Expr.relabel m)) (m.span span)
  | .assign target value span         => .assign target (value.relabel m) (m.span span)
  | .ifThen condition body span       =>
      .ifThen (condition.relabel m) (Block.relabel m body) (m.span span)
  | .ifElse condition body other span =>
      .ifElse (condition.relabel m) (Block.relabel m body) (Block.relabel m other) (m.span span)
  | .whileDo condition body span      =>
      .whileDo (condition.relabel m) (Block.relabel m body) (m.span span)

def Block.relabel (m : Labelling) : List Stmt → List Stmt
  | []      => []
  | s :: ss => s.relabel m :: Block.relabel m ss

end

def Procedure.relabel (m : Labelling) (p : Procedure) : Procedure :=
  ⟨p.name, p.params.map (Param.relabel m), p.returns.relabel m, Block.relabel m p.body,
    m.span p.span⟩

/-- The diagnostic at another place. -/
def Diagnostic.relabel (m : Labelling) : Diagnostic → Diagnostic
  | .dupSymbol name symbol loc            => .dupSymbol name symbol (m.span loc)
  | .noSuchSymbol name loc                => .noSuchSymbol name (m.span loc)
  | .typeMismatch expected actual loc     => .typeMismatch expected actual (m.span loc)
  | .argCountMismatch expected actual loc => .argCountMismatch expected actual (m.span loc)
  | .returnCountMismatch expected loc     => .returnCountMismatch expected (m.span loc)
  | .unreachable reason loc               => .unreachable reason (m.span loc)
  | .syntaxError error loc                => .syntaxError error (m.span loc)

@[simp] theorem Token.kind_relabel (m : Labelling) (t : Token) : (t.relabel m).kind = t.kind :=
  rfl

@[simp] theorem Token.lexeme_relabel (m : Labelling) (t : Token) :
    (t.relabel m).lexeme = t.lexeme := rfl

@[simp] theorem Token.span_relabel (m : Labelling) (t : Token) :
    (t.relabel m).span = m.span t.span := rfl

@[simp] theorem Expr.span_relabel (m : Labelling) (e : Expr) :
    (e.relabel m).span = m.span e.span := by
  cases e <;> rfl

@[simp] theorem Expr.id_relabel (m : Labelling) (e : Expr) : (e.relabel m).id = m.id e.id := by
  cases e <;> rfl

theorem Block.relabel_eq_map (m : Labelling) (ss : List Stmt) :
    Block.relabel m ss = ss.map (Stmt.relabel m) := by
  induction ss with
  | nil => rfl
  | cons s ss ih => rw [Block.relabel, ih, List.map_cons]

/-! ### The same labels -/

@[simp] theorem Labelling.span_same (s : Span) : Labelling.same.span s = s := rfl

@[simp] theorem Labelling.id_same (i : ExprId) : Labelling.same.id i = i := rfl

theorem Token.relabel_same (t : Token) : t.relabel .same = t := rfl

theorem Expr.relabel_same (e : Expr) : e.relabel .same = e := by
  induction e with
  | var | bool | int => rfl
  | binary op left right id span ihl ihr => simp [relabel, ihl, ihr]
  | unary op operand id span ih => simp [relabel, ih]
  | paren inner id span ih => simp [relabel, ih]

theorem TypeName.relabel_same (a : TypeName) : a.relabel .same = a := rfl

theorem Param.relabel_same (q : Param) : q.relabel .same = q := rfl

mutual

theorem Stmt.relabel_same : ∀ s : Stmt, s.relabel .same = s
  | .varDef _ _ none _ | .ret none _ => rfl
  | .varDef _ _ (some e) _ => by simp [Stmt.relabel, TypeName.relabel_same, e.relabel_same]
  | .ret (some e) _ | .assign _ e _ => by simp [Stmt.relabel, e.relabel_same]
  | .call _ es _ => by simp [Stmt.relabel, List.map_id'' Expr.relabel_same]
  | .ifThen e body _ | .whileDo e body _ => by
      simp [Stmt.relabel, e.relabel_same, Block.relabel_same body]
  | .ifElse e body other _ => by
      simp [Stmt.relabel, e.relabel_same, Block.relabel_same body, Block.relabel_same other]

theorem Block.relabel_same : ∀ ss : List Stmt, Block.relabel .same ss = ss
  | [] => rfl
  | s :: ss => by rw [Block.relabel, Stmt.relabel_same s, Block.relabel_same ss]

end

theorem Procedure.relabel_same (p : Procedure) : p.relabel .same = p := by
  simp [relabel, Block.relabel_same, List.map_id'' Param.relabel_same, TypeName.relabel_same]

theorem Diagnostic.relabel_same (d : Diagnostic) : d.relabel .same = d := by
  cases d <;> rfl

end ProcScript
