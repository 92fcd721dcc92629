/-!
# ProcScript — Ty

The four types a script can name.  `error` is a type like the others: it is also what an
expression without a known type has, and it agrees with nothing but itself.
-/

namespace ProcScript

inductive Ty where
  | int32
  | bool
  | void
  | error
  deriving DecidableEq, Inhabited

namespace Ty

/-- A type as scripts spell it. -/
def name : Ty → String
  | int32 => "Int32"
  | bool  => "Bool"
  | void  => "Void"
  | error => "Error"

/-- The type spelled `s`, if any. -/
def ofName? : String → Option Ty
  | "Int32" => some int32
  | "Bool"  => some bool
  | "Void"  => some void
  | "Error" => some error
  | _       => none

/-- A value of type `a` may stand where `b` is expected: only if they are the same. -/
def agrees (a b : Ty) : Bool := a == b

@[simp] theorem agrees_iff {a b : Ty} : a.agrees b = true ↔ a = b := by
  simp [agrees]

/-- Spelling and reading are inverse. -/
theorem ofName?_eq_some_iff {s : String} {t : Ty} : ofName? s = some t ↔ s = t.name := by
  constructor
  · intro h
    unfold ofName? at h
    split at h <;> simp_all [name]
    all_goals subst h; rfl
  · rintro rfl
    cases t <;> rfl

end Ty

end ProcScript
