import ProcScript.Proofs.Check.Run

/-!
# Check — the verdict

A script is accepted exactly if it is well typed (`check_eq_ok_iff`), provided its expressions
have different numbers.  Numbers that repeat would let an operator read the type of a literal.
-/

namespace ProcScript

/-- A type is known exactly if it is spelled in one of four ways. -/
theorem TypeName.ty?_isSome_iff (a : TypeName) :
    a.ty?.isSome = true ↔ a.name ∈ ["Int32", "Bool", "Void", "Error"] := by
  rw [Option.isSome_iff_exists]
  simp only [TypeName.ty?, Ty.ofName?_eq_some_iff]
  constructor
  · rintro ⟨type, h⟩
    rw [h]
    cases type <;> decide
  · intro h
    simp only [List.mem_cons, List.not_mem_nil, or_false] at h
    rcases h with h | h | h | h
    · exact ⟨.int32, h⟩
    · exact ⟨.bool, h⟩
    · exact ⟨.void, h⟩
    · exact ⟨.error, h⟩

namespace Script

theorem unknownType?_eq_none_iff (s : Script) :
    s.unknownType? = none ↔ ∀ a ∈ s.typeNames, a.name ∈ ["Int32", "Bool", "Void", "Error"] := by
  rw [unknownType?, List.find?_eq_none]
  refine forall₂_congr fun a _ => ?_
  rw [← a.ty?_isSome_iff]
  cases a.ty? <;> simp

/-- A script is accepted if its types are known and nothing is found wrong. -/
theorem check_eq_ok_ok_iff (s : Script) :
    (∃ checked, s.check = .ok (.ok checked)) ↔ s.unknownType? = none ∧ s.checking.found = [] := by
  cases hu : s.unknownType? with
  | some a =>
      have hc : s.check = .error (.unknownType a.name a.span) := by
        simp only [check, validate, hu]
        rfl
      simp [hc]
  | none =>
      have hc : s.check = .ok (Diagnostic.settle s.checking.found
          ⟨s, s.checking.procedures, s.checking.types⟩) := by
        simp only [check, validate, hu]
        rfl
      simp [hc, Diagnostic.settle_eq_ok_iff]

/-- **The checker accepts exactly the well-typed scripts.** -/
theorem check_eq_ok_iff (s : Script) (h : s.exprIds.Nodup) :
    (∃ checked, s.check = .ok (.ok checked)) ↔ s.WellTyped := by
  have hproblems := Procedure.problemsAfter_eq_nil_iff
    (show (([] : List Procedure).map Procedure.name).Nodup from List.nodup_nil) s.procedures
  rw [check_eq_ok_ok_iff, unknownType?_eq_none_iff, checking_found h, hproblems]
  constructor
  · rintro ⟨hk, hn, hp⟩
    exact ⟨hk, hn, fun earlier p later hs => by simpa using hp earlier p later hs⟩
  · rintro ⟨hk, hn, hp⟩
    exact ⟨hk, hn, fun earlier p later hs => by simpa using hp earlier p later hs⟩

/-- A variable declared inside a branch is used in the other branch, in a call and in the value
that is returned. -/
def branching : Script :=
  ⟨"", [⟨"show", [⟨"n", ⟨"Int32", .none⟩, .none⟩], ⟨"Void", .none⟩, [], .none⟩,
    ⟨"main", [⟨"n", ⟨"Bool", .none⟩, .none⟩], ⟨"Int32", .none⟩,
      [.varDef "x" ⟨"Int32", .none⟩ (some (.int 1 0 .none)) .none,
        .ifElse (.binary .lt (.var "x" 1 .none) (.var "n" 2 .none) 3 .none)
          [.varDef "y" ⟨"Int32", .none⟩ (some (.var "x" 4 .none)) .none]
          [.assign "y" (.int 2 5 .none) .none, .assign "n" (.int 3 6 .none) .none] .none,
        .call "show" [.var "y" 7 .none] .none,
        .ret (some (.var "y" 8 .none)) .none], .none⟩], .none⟩

theorem branching_wellTyped :
    branching.exprIds.Nodup ∧ (∃ checked, branching.check = .ok (.ok checked)) ∧
      branching.WellTyped :=
  have hn : branching.exprIds.Nodup := by decide
  have hc : ∃ checked, branching.check = .ok (.ok checked) := ⟨_, rfl⟩
  ⟨hn, hc, (check_eq_ok_iff branching hn).mp hc⟩

end Script

end ProcScript
