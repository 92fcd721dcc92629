import ProcScript.Span
import ProcScript.Ty

/-!
# ProcScript — Scope

The names that are bound inside one procedure.  A name is bound once, by its first declaration;
a later one is refused and told where the first is.  Parameters and variables share the names,
and a parameter never becomes a variable.
-/

namespace ProcScript

/-- A parameter as the body and the callers of its procedure know it. -/
structure Formal where
  name : String
  type : Ty
  loc : Span
  deriving DecidableEq, Inhabited

/-- What a name is bound to. -/
inductive Binding where
  | param (formal : Formal)
  | var (name : String) (type : Ty) (loc : Span) (initialized : Bool)
  deriving DecidableEq, Inhabited

namespace Binding

def name : Binding → String
  | param f      => f.name
  | var name _ _ _ => name

def loc : Binding → Span
  | param f     => f.loc
  | var _ _ loc _ => loc

/-- The type of a variable; a parameter has none that expressions could have. -/
def varType? : Binding → Option Ty
  | param _     => none
  | var _ type _ _ => some type

/-- A variable that has a value; a parameter stays as it is. -/
def assigned : Binding → Binding
  | param f           => param f
  | var name type loc _ => var name type loc true

@[simp] theorem name_assigned (b : Binding) : b.assigned.name = b.name := by
  cases b <;> rfl

end Binding

/-- The bindings of one procedure, oldest first. -/
structure Scope where
  bindings : List Binding
  deriving DecidableEq, Inhabited

namespace Scope

def empty : Scope := ⟨[]⟩

/-- How many names are bound. -/
def size (s : Scope) : Nat := s.bindings.length

/-- What `name` is bound to. -/
def find? (s : Scope) (name : String) : Option Binding := s.bindings.find? fun b => b.name = name

def contains (s : Scope) (name : String) : Bool := (s.find? name).isSome

/-- The scope with `b`; if its name is bound, where that was done. -/
def define (s : Scope) (b : Binding) : Except Span Scope :=
  match s.find? b.name with
  | some first => .error first.loc
  | none       => .ok ⟨s.bindings ++ [b]⟩

/-- The scope where `name`, if it is a variable, has a value. -/
def markInitialized (s : Scope) (name : String) : Scope :=
  ⟨s.bindings.map fun b => if b.name = name then b.assigned else b⟩

theorem define_of_none {s : Scope} {b : Binding} (h : s.find? b.name = none) :
    s.define b = .ok ⟨s.bindings ++ [b]⟩ := by
  rw [define, h]

theorem define_of_some {s : Scope} {b first : Binding} (h : s.find? b.name = some first) :
    s.define b = .error first.loc := by
  rw [define, h]

/-! ### Looking up after a change -/

theorem find?_define {s t : Scope} {b : Binding} (h : s.define b = .ok t) (name : String) :
    t.find? name = if b.name = name then some b else s.find? name := by
  unfold define at h
  split at h
  · exact absurd h (by simp)
  · rename_i hb
    obtain rfl := Except.ok.inj h
    simp only [find?] at hb ⊢
    rw [List.find?_append]
    by_cases hn : b.name = name
    · subst hn
      simp [hb]
    · simp [hn]

theorem name_mark (target : String) (b : Binding) :
    (if b.name = target then b.assigned else b).name = b.name := by
  split <;> simp

theorem find?_markInitialized (s : Scope) (target name : String) :
    (s.markInitialized target).find? name =
      if name = target then (s.find? name).map Binding.assigned else s.find? name := by
  simp only [find?, markInitialized, List.find?_map, Function.comp_def, name_mark]
  cases hb : s.bindings.find? fun b => b.name = name with
  | none => simp
  | some b =>
      have hn : b.name = name := by simpa using List.find?_some hb
      by_cases ht : name = target <;> simp [hn, ht]

end Scope

end ProcScript
