import ProcScript.Expr
import ProcScript.Ty
import Std.Data.TreeMap

/-!
# ProcScript — ExprTypes

The types of expressions, by number.  The first type recorded for a number stays; a number
without one has the type `error`.
-/

namespace ProcScript

/-- The types recorded so far. -/
structure ExprTypes where
  types : Std.TreeMap ExprId Ty

namespace ExprTypes

def empty : ExprTypes := ⟨∅⟩

/-- How many expressions have a type. -/
def size (m : ExprTypes) : Nat := m.types.size

/-- The expression has a type. -/
def contains (m : ExprTypes) (id : ExprId) : Bool := m.types.contains id

/-- The type of the expression, `error` if it has none. -/
def get (m : ExprTypes) (id : ExprId) : Ty := m.types.getD id .error

/-- The map where the expression has a type, `type` if it had none. -/
def record (m : ExprTypes) (id : ExprId) (type : Ty) : ExprTypes :=
  ⟨m.types.insertIfNew id type⟩

/-- The map behind `record`; says whether the expression had no type. -/
def write (m : ExprTypes) (id : ExprId) (type : Ty) : Bool × ExprTypes :=
  (!m.contains id, m.record id type)

theorem contains_empty (id : ExprId) : empty.contains id = false :=
  Std.TreeMap.contains_emptyc

theorem contains_record (m : ExprTypes) (id : ExprId) (type : Ty) (i : ExprId) :
    (m.record id type).contains i = (id == i || m.contains i) := by
  simp only [contains, record, Std.TreeMap.contains_insertIfNew]
  congr 1
  grind

theorem get_record (m : ExprTypes) (id : ExprId) (type : Ty) (i : ExprId) :
    (m.record id type).get i = if id = i ∧ m.contains id = false then type else m.get i := by
  simp only [contains, get, record, Std.TreeMap.getD_insertIfNew]
  grind

end ExprTypes

end ProcScript
