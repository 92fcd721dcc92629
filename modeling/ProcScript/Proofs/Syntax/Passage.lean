import ProcScript.Proofs.Syntax.Words

/-!
# Syntax — what a reader passes

`r.Passes s ts ds` says how a reader came from `r` to `s`: it passed the tokens `ts`, in their
order and without a gap, and found `ds`.  Passages are composed (`Passes.trans`), and what a
single move passes is one token and what a report finds is one diagnostic; everything a reader
does is a composition of these.
-/

namespace ProcScript

namespace Reader

/-- From `r` to `s` the tokens `ts` are passed and `ds` is found. -/
structure Passes (r s : Reader) (ts : List Token) (ds : List Diagnostic) : Prop where
  rest : r.rest = ts ++ s.rest
  stop : s.stop = r.stop
  found : s.found = r.found ++ ds

variable {r s u : Reader} {t : Token} {ts us : List Token} {ds es : List Diagnostic}

theorem Passes.refl (r : Reader) : r.Passes r [] [] :=
  ⟨rfl, rfl, (List.append_nil _).symm⟩

theorem Passes.trans (h : r.Passes s ts ds) (h' : s.Passes u us es) :
    r.Passes u (ts ++ us) (ds ++ es) where
  rest := by rw [h.rest, h'.rest, List.append_assoc]
  stop := h'.stop.trans h.stop
  found := by rw [h'.found, h.found, List.append_assoc]

theorem Passes.report (r : Reader) (error : SyntaxError) (loc : Span) :
    r.Passes (r.report error loc) [] [.syntaxError error loc] :=
  ⟨rfl, rfl, rfl⟩

theorem Passes.advance (h : r.rest = t :: ts) : r.Passes r.advance [t] [] := by
  rw [Reader.advance]
  split
  · simp_all
  · rename_i t' ts' h'
    obtain ⟨rfl, rfl⟩ := List.cons.inj (h'.symm.trans h)
    exact ⟨h', rfl, (List.append_nil _).symm⟩

/-- The number of the next expression has no part in what is passed. -/
theorem Passes.nextId (r : Reader) (id : ExprId) : r.Passes { r with nextId := id } [] [] :=
  ⟨rfl, rfl, (List.append_nil _).symm⟩

theorem passes_next? {s : { s : Reader // s.rest.length < r.rest.length }}
    (h : r.next? = some (t, s)) : r.Passes s.val [t] [] := by
  obtain ⟨hr, hs⟩ := next?_eq_some h
  rw [hs]
  exact .advance hr

theorem passes_eat? {kind : Kind} {s : { s : Reader // s.rest.length < r.rest.length }}
    (h : r.eat? kind = some s) : ∃ t, t.kind = kind ∧ r.Passes s.val [t] [] := by
  rw [eat?] at h
  split at h
  · rename_i t s' ht
    split at h
    · obtain rfl := Option.some.inj h
      exact ⟨t, ‹_›, passes_next? ht⟩
    · cases h
  · cases h

theorem passes_toBoundary (r : Reader) : ∃ ts, r.Passes r.toBoundary ts [] := by
  fun_induction toBoundary r with
  | case1 r h => exact ⟨[], .refl r⟩
  | case2 r t ts h hb => exact ⟨[], .refl r⟩
  | case3 r t ts h hb ih =>
      obtain ⟨us, hu⟩ := ih
      exact ⟨[t] ++ us, (Passes.advance h).trans hu⟩

theorem passes_toDef (r : Reader) : ∃ ts, r.Passes r.toDef ts [] := by
  fun_induction toDef r with
  | case1 r h => exact ⟨[], .refl r⟩
  | case2 r t ts h hd => exact ⟨[], .refl r⟩
  | case3 r t ts h hd ih =>
      obtain ⟨us, hu⟩ := ih
      exact ⟨[t] ++ us, (Passes.advance h).trans hu⟩

/-! ### What is skipped -/

theorem toBoundary_nil (h : r.rest = []) : r.toBoundary = r := by
  rw [toBoundary]
  split
  · rfl
  · simp_all

theorem toBoundary_cons (h : r.rest = t :: ts) :
    r.toBoundary =
      if r.last = .semicolon ∨ t.kind ∈ boundaries then r else r.advance.toBoundary := by
  rw [toBoundary]
  split
  · simp_all
  · simp_all

theorem toDef_nil (h : r.rest = []) : r.toDef = r := by
  rw [toDef]
  split
  · rfl
  · simp_all

theorem toDef_cons (h : r.rest = t :: ts) :
    r.toDef = if t.kind = .kwDef then r else r.advance.toDef := by
  rw [toDef]
  split
  · simp_all
  · simp_all

/-! ### Before the first token -/

theorem ofTokens_stop (ts : List Token) : (ofTokens ts).stop.kind = .eof := by
  rw [ofTokens]
  cases h : ts.find? fun t => t.kind = .eof with
  | none => rfl
  | some t => simpa using List.find?_some h

theorem ofTokens_inside (ts : List Token) : ∀ t ∈ (ofTokens ts).rest, t.kind ≠ .eof := by
  intro t ht
  simpa using List.all_eq_true.mp List.all_takeWhile t ht

/-! ### What comes next -/

theorem peek_eq (h : r.rest = t :: ts) : r.peek = t.kind := by
  simp [peek, current, h]

theorem next?_eq (h : r.rest = t :: ts) :
    ∃ hlt, r.next? = some (t, ⟨r.advance, hlt⟩) := by
  have hne : r.rest ≠ [] := by simp [h]
  refine ⟨length_advance_lt hne, ?_⟩
  simp [next?, current, h]

end Reader

end ProcScript
