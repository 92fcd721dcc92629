import ProcScript.Proofs.Syntax.Parting

/-!
# Syntax — reading on from a place

What is read of a block does not hang on where one starts to look: behind statements that were
read, and behind a statement that failed and was skipped, the block goes on as one that is read
from there.  `r.Leads closers s front` says so: the block read from `r` is `front` and then the
block read from `s`.  The words of statements lead behind them (`Reader.Faces.leads`), and those
of procedures lead behind these (`Reader.Faces.leads_procedures`).
-/

namespace ProcScript

namespace Reader

variable {r s u : Reader} {t : Token} {closers : List Kind} {front back : List Stmt}
  {ws : List Word} {ds : List Diagnostic}

/-- The block read from `r` is `front` and then the block read from `s`. -/
structure Leads (closers : List Kind) (r s : Reader) (front : List Stmt) : Prop where
  stmts : (r.block closers).stmts = front ++ (s.block closers).stmts
  after : (r.block closers).after = (s.block closers).after

theorem Leads.refl (closers : List Kind) (r : Reader) : r.Leads closers r [] := ⟨rfl, rfl⟩

theorem Leads.trans (h : Leads closers r s front) (h' : Leads closers s u back) :
    Leads closers r u (front ++ back) where
  stmts := by rw [h.stmts, h'.stmts, List.append_assoc]
  after := h.after.trans h'.after

section
variable {hlt : s.rest.length < r.rest.length} (hn : r.next? = some (t, ⟨s, hlt⟩))
  (hk : ¬(t.kind = .kwDef ∨ t.kind ∈ closers))
include hn hk

/-- Behind a statement that was read. -/
theorem leads_of_ok {st : Stmt} {h : u.rest.length < s.rest.length}
    (hst : s.stmt t = .ok st u h) : r.Leads closers u [st] := by
  constructor <;> simp only [block.eq_def closers r, hn, if_neg hk, hst] <;> rfl

/-- Behind a statement that failed. -/
theorem leads_of_fail {h : u.rest.length ≤ s.rest.length} (hst : s.stmt t = .fail u h) :
    r.Leads closers u.toBoundary [] := by
  constructor <;> simp only [block.eq_def closers r, hn, if_neg hk, hst] <;> rfl

end

/-- No statement starts with a kind that closes a block. -/
theorem not_closes {k : Kind} (hsub : closers ⊆ [.kwElse, .kwEnd])
    (hk : k ∉ [.kwDef, .kwElse, .kwEnd]) : ¬(k = .kwDef ∨ k ∈ closers) := by
  rintro (rfl | hm)
  · exact hk (by decide)
  · exact hk (List.mem_cons_of_mem _ (hsub hm))

section
variable {done : Stmt → Reader → Prop} {lost : Reader → Prop} {e : Expr}

/-- A statement starts here, and behind its first token it ends so. -/
def EndsStmt (r : Reader) (done : Stmt → Reader → Prop) (lost : Reader → Prop) : Prop :=
  ∃ t s hlt, r.next? = some (t, ⟨s, hlt⟩) ∧ t.kind ∉ [.kwDef, .kwElse, .kwEnd] ∧
    (s.stmt t).Ends done lost

/-- A statement that cannot fail is read. -/
theorem EndsStmt.leads (h : r.EndsStmt done fun _ => False) (hsub : closers ⊆ [.kwElse, .kwEnd]) :
    ∃ s v, r.Leads closers s [v] ∧ done v s := by
  obtain ⟨t, s, hlt, hn, hk, hg⟩ := h
  obtain ⟨v, u, hu, hst, hdone⟩ := Outcome.gives_iff.mp hg
  exact ⟨u, v, leads_of_ok hn (not_closes hsub hk) hst, hdone⟩

/-- A statement that cannot succeed is left out. -/
theorem EndsStmt.leads_of_lost (h : r.EndsStmt (fun _ _ => False) lost)
    (hsub : closers ⊆ [.kwElse, .kwEnd]) :
    ∃ u, r.Leads closers u.toBoundary [] ∧ lost u := by
  obtain ⟨t, s, hlt, hn, hk, hg⟩ := h
  cases hst : s.stmt t with
  | ok st u hu =>
      rw [hst] at hg
      exact hg.elim
  | fail u hu =>
      rw [hst] at hg
      exact ⟨u, leads_of_fail hn (not_closes hsub hk) hst, hg⟩

/-- An `if` ends as what is behind its `then`. -/
theorem Faces.endsIf (he : e.Nested)
    (h : r.Faces (.kind .kwIf :: (e.words ++ .kind .kwThen :: ws)) ds)
    (hk : ∀ (start : Span) (v : Expr) (s : Reader), v.bare = e.bare → s.Faces ws ds →
      (s.branches v start).Ends done lost) :
    r.EndsStmt done lost := by
  obtain ⟨t, s, hlt, hn, hw, -, hs⟩ := h.next?
  have ht : t.kind = .kwIf := Token.kind_of_word hw
  refine ⟨t, s, hlt, hn, ht ▸ by decide, ?_⟩
  rw [Reader.stmt]
  simp only [ht]
  exact hs.ifStmt he (hk t.span)

/-- A `while` ends as what is behind its `do`. -/
theorem Faces.endsWhile (he : e.Nested)
    (h : r.Faces (.kind .kwWhile :: (e.words ++ .kind .kwDo :: ws)) ds)
    (hk : ∀ (start : Span) (v : Expr) (s : Reader), v.bare = e.bare → s.Faces ws ds →
      (s.closed (Stmt.whileDo v) start).Ends done lost) :
    r.EndsStmt done lost := by
  obtain ⟨t, s, hlt, hn, hw, -, hs⟩ := h.next?
  have ht : t.kind = .kwWhile := Token.kind_of_word hw
  refine ⟨t, s, hlt, hn, ht ▸ by decide, ?_⟩
  rw [Reader.stmt]
  simp only [ht]
  exact hs.whileStmt he (hk t.span)

end

/-- Behind the words of statements. -/
theorem Faces.leads {ss : List Stmt} (hss : ProcScript.Block.Nested ss)
    (hsub : closers ⊆ [.kwElse, .kwEnd]) {r : Reader}
    (h : r.Faces (ProcScript.Block.words ss ++ ws) ds) :
    ∃ s front, r.Leads closers s front ∧
      ProcScript.Block.bare front = ProcScript.Block.bare ss ∧ s.Faces ws ds := by
  induction ss generalizing r with
  | nil => exact ⟨r, [], .refl closers r, rfl, h⟩
  | cons st ss ih =>
      obtain ⟨hst, hss⟩ := ProcScript.Block.nested_cons.mp hss
      rw [ProcScript.Block.words, List.append_assoc] at h
      have hends : r.EndsStmt _ fun _ => False := Faces.stmt st hst h
      obtain ⟨s, v, hlead, hv, hs⟩ := hends.leads hsub
      obtain ⟨u, front, hlead', hfront, hu⟩ := ih hss hs
      refine ⟨u, v :: front, hlead.trans hlead', ?_, hu⟩
      rw [ProcScript.Block.bare, ProcScript.Block.bare, hv, hfront]

end Reader

end ProcScript
