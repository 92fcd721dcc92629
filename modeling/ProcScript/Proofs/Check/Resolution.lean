import ProcScript.Proofs.Check.Findings
import ProcScript.Proofs.Check.Verdict

/-!
# Check — what a call resolves to

In a run that finds nothing, every call is of a name that is declared in its procedure before
it, or of an earlier procedure (`Stmt.Resolves`), and every procedure has a name of its own.
This rests on scopes and tables alone: what types are recorded, and under which numbers, has no
part in it, so it holds of trees whose numbers repeat.
-/

namespace ProcScript

/-- A call is of a name declared in its procedure or of an earlier procedure. -/
def Stmt.Resolves (earlier : List Procedure) (env : Env) : Stmt → Prop
  | .call callee _ _ => callee ∈ env.names ∨ callee ∈ earlier.map Procedure.name
  | .varDef .. | .assign .. | .ret .. | .ifThen .. | .ifElse .. | .whileDo .. => True

namespace Checking

variable {earlier : List Procedure} {env : Env} {c : Checking}

/-! ### Runs that find nothing -/

/-- **A call that is not reported resolves.** -/
theorem judge_resolves (h : c.Agrees earlier env) {s : Stmt} (hf : (c.judge s).found = []) :
    s.Resolves earlier env := by
  cases s with
  | call callee args span =>
      by_cases hc : callee ∈ env.names
      · exact .inl hc
      · simp only [judge, h.procedures, if_neg (mt (h.scope.contains_iff callee).mp hc)] at hf
        cases hp : earlier.find? fun p => p.name = callee with
        | none =>
            -- The name stands for nothing, and that is reported.
            simp [hp, report] at hf
        | some p =>
            have hn : p.name = callee := by simpa using List.find?_some hp
            exact .inr (List.mem_map.mpr ⟨p, List.mem_of_find?_eq_some hp, hn⟩)
  | varDef | assign | ret | ifThen | ifElse | whileDo => trivial

theorem visit_resolves (h : c.Agrees earlier env) {s : Stmt} (hf : (c.visit s).found = []) :
    c.found = [] ∧ s.Resolves earlier env := by
  have hadds : Adds (fun _ => True) c (c.visit s) := Adds.visit (fun _ _ => trivial) c
  have hpre := hadds.kept
  rw [hf, List.prefix_nil] at hpre
  rw [visit] at hf
  exact ⟨hpre, judge_resolves (resolveAll_agrees h s.exprs) hf⟩

theorem foldl_visit_resolves (h : c.Agrees earlier env) {ss : List Stmt}
    (hf : (ss.foldl visit c).found = []) :
    c.found = [] ∧ ∀ site ∈ Env.sites Stmt.decls env ss, site.2.Resolves earlier site.1 := by
  induction ss generalizing c env with
  | nil => exact ⟨hf, fun _ hs => absurd hs List.not_mem_nil⟩
  | cons s ss ih =>
      rw [List.foldl_cons] at hf
      obtain ⟨hfound, hsites⟩ := ih (visit_agrees h s) hf
      obtain ⟨hfound, hs⟩ := visit_resolves h hfound
      refine ⟨hfound, ?_⟩
      intro site hsite
      rcases List.mem_cons.mp hsite with rfl | hsite
      · exact hs
      · exact hsites site hsite

/-- **A procedure on which nothing is found** has a name of its own, and its calls resolve. -/
theorem procedure_resolves (h : c.Agrees earlier env) {p : Procedure}
    (hf : (c.procedure p).found = []) :
    c.found = [] ∧ p.name ∉ earlier.map Procedure.name ∧
      ∀ site ∈ p.sites, site.2.Resolves earlier site.1 := by
  obtain ⟨c₀, hc₀found, -, hc₀, hbody⟩ := body_eq_foldl h p
  obtain ⟨procedures, hr, -⟩ := register_spec (body_agrees h p) p
  -- Nothing is found at any point of the way, from the last one back to the first.
  simp only [procedure, hr, List.append_eq_nil_iff] at hf
  obtain ⟨⟨⟨hfbody, hname⟩, -⟩, -⟩ := hf
  have hn : p.name ∉ earlier.map Procedure.name := fun hmem => by simp [hmem] at hname
  rw [hbody] at hfbody
  obtain ⟨hfound, hsites⟩ := foldl_visit_resolves hc₀ hfbody
  rw [hc₀found, List.append_eq_nil_iff] at hfound
  exact ⟨hfound.1, hn, hsites⟩

theorem foldl_procedure_resolves (h : c.Agrees earlier env) {ps : List Procedure}
    (hf : (ps.foldl procedure c).found = []) :
    c.found = [] ∧
      ((earlier.map Procedure.name).Nodup → ((earlier ++ ps).map Procedure.name).Nodup) ∧
      ∀ before p after, ps = before ++ p :: after →
        ∀ site ∈ p.sites, site.2.Resolves (earlier ++ before) site.1 := by
  induction ps generalizing c earlier env with
  | nil => exact ⟨hf, by simp, fun _ _ _ hs => by simp at hs⟩
  | cons p ps ih =>
      rw [List.foldl_cons] at hf
      obtain ⟨hfound, hnodup, hlater⟩ := ih (procedure_agrees h p) hf
      obtain ⟨hfound, hn, hsites⟩ := procedure_resolves h hfound
      refine ⟨hfound, fun hearlier => ?_, fun before q after hs => ?_⟩
      · have hp : ((earlier ++ [p]).map Procedure.name).Nodup := by
          rw [List.map_append, List.nodup_append']
          exact ⟨hearlier, List.nodup_singleton _, by simpa using hn⟩
        simpa using hnodup hp
      · cases before with
        | nil =>
            obtain ⟨rfl, rfl⟩ := List.cons.inj hs
            simpa using hsites
        | cons b before =>
            obtain ⟨rfl, rfl⟩ := List.cons.inj hs
            simpa using hlater before q after rfl

end Checking

/-- **The calls of a checked script resolve**, and its procedures have different names. -/
theorem Script.resolves_of_check {s : Script} {c : CheckedScript} (h : s.check = .ok (.ok c)) :
    (s.procedures.map Procedure.name).Nodup ∧
      ∀ earlier p later, s.procedures = earlier ++ p :: later →
        ∀ site ∈ p.sites, site.2.Resolves earlier site.1 := by
  have hf : s.checking.found = [] := (s.check_eq_ok_ok_iff.mp ⟨c, h⟩).2
  obtain ⟨-, hn, hsites⟩ := Checking.foldl_procedure_resolves Checking.start_agrees hf
  exact ⟨by simpa using hn List.nodup_nil, by simpa using hsites⟩

end ProcScript
