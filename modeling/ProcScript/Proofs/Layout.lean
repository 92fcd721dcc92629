import Mathlib
import ProcScript.Analyzer
import ProcScript.Proofs.Check.Relabel
import ProcScript.Proofs.Syntax.Lockstep

/-!
# Layout

**Layout never changes the outcome** (`SourceText.SameTokens.outcome`): two texts whose tokens
have the same kinds and the same texts are read as one script, up to places, and what a check or
a call graph says of them is the same, up to places.  Both readings are taken to one third
reading, of the tokens without places, and the checking that follows is blind to places.
-/

namespace ProcScript

/-- The tokens read from nowhere. -/
def Setting.nowhere : Setting where
  label := .unplaced
  tail := []
  stop := .endOfInput .none
  before := []
  opens := opens_nil
  closes := rfl

theorem Setting.retell_nowhere (d : Diagnostic) :
    Setting.nowhere.retell d = d.relabel .unplaced := by
  cases d with
  | syntaxError error loc =>
      cases error with
      | expected what found => cases found <;> rfl
      | unexpectedChar | loneEquals | loneBang | openComment | outOfRange | callAsValue
      | stated => rfl
  | dupSymbol | noSuchSymbol | typeMismatch | argCountMismatch | returnCountMismatch
  | unreachable => rfl

variable {ts us : List Token}

/-- From nowhere, only the kinds and texts of the tokens are seen. -/
theorem Setting.view_nowhere
    (h : ts.map (Token.relabel .unplaced) = us.map (Token.relabel .unplaced)) :
    nowhere.view (Reader.ofTokens ts) = nowhere.view (Reader.ofTokens us) := by
  have hrest (ts : List Token) : (Reader.ofTokens ts).rest.map (Token.relabel .unplaced) =
      (ts.map (Token.relabel .unplaced)).takeWhile fun t => t.kind ≠ .eof := by
    rw [List.takeWhile_map]
    rfl
  have hsame : (Reader.ofTokens ts).rest.map (Token.relabel nowhere.label) =
      (Reader.ofTokens us).rest.map (Token.relabel nowhere.label) := by
    rw [nowhere, hrest, hrest, h]
  rw [view, view, hsame]
  rfl

theorem Setting.procedures_nowhere (ts : List Token) :
    (nowhere.view (Reader.ofTokens ts)).procedures =
      ((Reader.ofTokens ts).procedures.1.map (Procedure.relabel .unplaced),
        nowhere.view (Reader.ofTokens ts).procedures.2) := by
  have hshows : nowhere.Shows (Reader.ofTokens ts) (nowhere.view (Reader.ofTokens ts)) :=
    shows_ofTokens rfl
  exact hshows.procedures_of_tail rfl

/-- Tokens of the same kinds and texts are read as one script, up to places. -/
theorem Script.ofTokens_unplaced
    (h : ts.map (Token.relabel .unplaced) = us.map (Token.relabel .unplaced)) :
    (ofTokens ts).1.relabel .unplaced = (ofTokens us).1.relabel .unplaced ∧
      (ofTokens ts).2.map (Diagnostic.relabel .unplaced) =
        (ofTokens us).2.map (Diagnostic.relabel .unplaced) := by
  have hread := congrArg Reader.procedures (Setting.view_nowhere h)
  rw [Setting.procedures_nowhere, Setting.procedures_nowhere] at hread
  have hfound := congrArg (fun p => p.2.found) hread
  have hretell : Setting.nowhere.retell = Diagnostic.relabel .unplaced :=
    funext Setting.retell_nowhere
  simp only [Setting.view, hretell] at hfound
  constructor
  · rw [relabel, relabel]
    exact congrArg (fun ps => (⟨"", ps, .none⟩ : Script)) (congrArg Prod.fst hread)
  · exact hfound

/-- The texts differ in layout only: every character of both is part of a token or passed over in
silence, and their tokens have the same kinds and the same texts. -/
structure SourceText.SameTokens (s t : SourceText) : Prop where
  left : (Token.scan s.name s.text).2 = []
  right : (Token.scan t.name t.text).2 = []
  tokens : (Token.scan s.name s.text).1.map (fun a => (a.kind, a.lexeme)) =
    (Token.scan t.name t.text).1.map fun a => (a.kind, a.lexeme)

/-- The call graph that a check allows. -/
def Verdict.callGraph : Verdict → Except Misuse CallGraph
  | .error misuse      => .error misuse
  | .ok (.error found) => .error (.scriptHasErrors found.length)
  | .ok (.ok checked)  => .ok checked.script.callGraph

theorem Analyzer.callGraph_eq (a : Analyzer) : a.callGraph = Verdict.callGraph a.check := by
  rw [callGraph]
  rcases a.check with misuse | found | checked <;> rfl

theorem Verdict.callGraph_relabel (m : Labelling) (v : Verdict) :
    Verdict.callGraph (Verdict.relabel m v) =
      (Verdict.callGraph v).mapError (Misuse.relabel m) := by
  rcases v with misuse | found | checked
  · rfl
  · simp [relabel, callGraph, Except.mapError, Misuse.relabel]
  · simp [relabel, callGraph, Except.mapError, CheckedScript.relabel, Script.callGraph_relabel]

/-- A text whose characters are all right is checked as its tokens are. -/
theorem Analyzer.check_relabel {s : SourceText} (h : (Token.scan s.name s.text).2 = [])
    (quiet : Bool) :
    Verdict.relabel .unplaced (Analyzer.mk (some s) quiet).check =
      let read := Script.ofTokens (Token.scan s.name s.text).1
      if read.2.map (Diagnostic.relabel .unplaced) = [] then (read.1.relabel .unplaced).check
      else .ok (.error (read.2.map (Diagnostic.relabel .unplaced))) := by
  have hread : Script.ofText s.name s.text = Script.ofTokens (Token.scan s.name s.text).1 := by
    simp [Script.ofText, h]
  simp only [check, hread]
  obtain ⟨script, found⟩ := Script.ofTokens (Token.scan s.name s.text).1
  cases found with
  | nil => exact (script.check_relabel Labelling.unplaced_keepsIds).symm
  | cons d ds => rfl

/-- **Layout never changes the outcome.** -/
theorem SourceText.SameTokens.outcome {s t : SourceText} (h : s.SameTokens t)
    (quiet quiet' : Bool) :
    Verdict.relabel .unplaced (Analyzer.mk (some s) quiet).check =
        Verdict.relabel .unplaced (Analyzer.mk (some t) quiet').check ∧
      (Analyzer.mk (some s) quiet).callGraph.mapError (Misuse.relabel .unplaced) =
        (Analyzer.mk (some t) quiet').callGraph.mapError (Misuse.relabel .unplaced) := by
  have htokens : (Token.scan s.name s.text).1.map (Token.relabel .unplaced) =
      (Token.scan t.name t.text).1.map (Token.relabel .unplaced) := by
    have hbare := congrArg (List.map fun a : Kind × String => (⟨a.1, a.2, .none⟩ : Token)) h.tokens
    rwa [List.map_map, List.map_map] at hbare
  obtain ⟨hscript, hfound⟩ := Script.ofTokens_unplaced htokens
  have hcheck : Verdict.relabel .unplaced (Analyzer.mk (some s) quiet).check =
      Verdict.relabel .unplaced (Analyzer.mk (some t) quiet').check := by
    rw [Analyzer.check_relabel h.left, Analyzer.check_relabel h.right]
    simp only [hscript, hfound]
  refine ⟨hcheck, ?_⟩
  rw [Analyzer.callGraph_eq, Analyzer.callGraph_eq, ← Verdict.callGraph_relabel,
    ← Verdict.callGraph_relabel, hcheck]

/-- A procedure that calls itself, which it cannot, on one line. -/
def SourceText.tight : SourceText := ⟨"a", "def f():Void is f();end"⟩

/-- The same, with room and comments. -/
def SourceText.loose : SourceText := ⟨"b", "def f/**/()\n:Void is // self\n f( ) ;end"⟩

/-- What is wrong with the one is wrong with the other. -/
theorem SourceText.tight_loose :
    tight.SameTokens loose ∧
      Verdict.relabel .unplaced (Analyzer.mk (some loose) true).check =
        .ok (.error [.noSuchSymbol "f" .none]) ∧
      (Analyzer.mk (some loose) true).callGraph.mapError (Misuse.relabel .unplaced) =
        .error (.scriptHasErrors 1) := by
  have h : tight.SameTokens loose := ⟨by cbv, by cbv, by cbv⟩
  have hcheck : Verdict.relabel .unplaced (Analyzer.mk (some loose) true).check =
      .ok (.error [.noSuchSymbol "f" .none]) := (h.outcome true true).1.symm.trans (by cbv)
  refine ⟨h, hcheck, ?_⟩
  rw [Analyzer.callGraph_eq, ← Verdict.callGraph_relabel, hcheck]
  rfl

end ProcScript
