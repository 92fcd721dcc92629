import ProcScript.Scope

/-!
# ProcScript — ProcedureTable

The procedures that calls can mean, in the order in which they were registered.  A name is
registered once, by its first procedure; a later one is handed back.
-/

namespace ProcScript

/-- A procedure as its callers know it. -/
structure ProcedureEntry where
  name : String
  params : List Formal
  returns : Ty
  loc : Span
  deriving DecidableEq, Inhabited

/-- How many arguments a call needs. -/
def ProcedureEntry.arity (p : ProcedureEntry) : Nat := p.params.length

/-- The registered procedures, oldest first. -/
structure ProcedureTable where
  entries : List ProcedureEntry
  deriving DecidableEq, Inhabited

namespace ProcedureTable

def empty : ProcedureTable := ⟨[]⟩

/-- How many procedures are registered. -/
def size (t : ProcedureTable) : Nat := t.entries.length

/-- The procedure of that name. -/
def find? (t : ProcedureTable) (name : String) : Option ProcedureEntry :=
  t.entries.find? fun e => e.name = name

def contains (t : ProcedureTable) (name : String) : Bool := (t.find? name).isSome

/-- The names, in the order of registration. -/
def names (t : ProcedureTable) : List String := t.entries.map ProcedureEntry.name

/-- The table with `e`; if its name is taken, `e` itself. -/
def register (t : ProcedureTable) (e : ProcedureEntry) : Except ProcedureEntry ProcedureTable :=
  if t.contains e.name then .error e else .ok ⟨t.entries ++ [e]⟩

theorem register_of_contains {t : ProcedureTable} {e : ProcedureEntry}
    (h : t.contains e.name = true) : t.register e = .error e := by
  rw [register, if_pos h]

theorem register_of_not_contains {t : ProcedureTable} {e : ProcedureEntry}
    (h : ¬t.contains e.name = true) : t.register e = .ok ⟨t.entries ++ [e]⟩ := by
  rw [register, if_neg h]

theorem find?_register {t u : ProcedureTable} {e : ProcedureEntry} (h : t.register e = .ok u)
    (name : String) : u.find? name = if e.name = name then some e else t.find? name := by
  unfold register at h
  split at h
  · exact absurd h (by simp)
  · rename_i he
    obtain rfl := Except.ok.inj h
    simp only [contains, Bool.not_eq_true, Option.isSome_eq_false_iff, Option.isNone_iff_eq_none]
      at he
    simp only [find?] at he ⊢
    rw [List.find?_append]
    by_cases hn : e.name = name
    · subst hn
      simp [he]
    · simp [hn]

end ProcedureTable

end ProcScript
