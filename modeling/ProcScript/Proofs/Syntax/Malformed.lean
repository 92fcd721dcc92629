import ProcScript.Proofs.Syntax.Leading
import ProcScript.Proofs.Syntax.Once

/-!
# Syntax — one malformed statement

Tokens that are no statement, up to a `;` and with it, are skipped for one diagnostic where a
statement may start (`Reader.Skips`), whatever reading gave up on them and wherever: it found one
thing, and it stopped before the `;`, so the `;` is where the reader goes on behind.

**Put into a script where a statement may start, they change nothing else**
(`Script.ofTokens_insert`).  This is shown by induction on the place: in each block around it the
words are read as before, once those are skipped.
-/

namespace ProcScript

/-! ### Tokens that are no statement -/

/-- A statement without blocks, as it may be attempted, up to its `;`: one `var` or `return` in
front at most, and behind that no keyword of statements but `then` and `do`, and no `def`. -/
def Grammar.Attempt (ks : List Kind) : Prop :=
  ∃ front back, ks = front ++ back ∧ front ∈ [[], [Kind.kwVar], [Kind.kwReturn]] ∧
    ∀ k ∈ back, k ∉ [Kind.semicolon, .kwVar, .kwReturn, .kwIf, .kwWhile, .kwElse, .kwEnd, .kwDef,
      .eof]

theorem Grammar.Attempt.cons {k : Kind} {ks : List Kind} (h : Attempt (k :: ks)) :
    k ∉ [Kind.semicolon, .kwIf, .kwWhile, .kwElse, .kwEnd, .kwDef, .eof] ∧
      ∀ l ∈ ks, l ≠ .semicolon ∧ l ∉ Reader.boundaries := by
  obtain ⟨front, back, heq, hfront, hback⟩ := h
  have hrest : ∀ l ∈ back, l ≠ .semicolon ∧ l ∉ Reader.boundaries := fun l hl => by
    have := hback l hl
    simp only [List.mem_cons, List.not_mem_nil, or_false, not_or] at this
    simp [Reader.boundaries, this]
  simp only [List.mem_cons, List.not_mem_nil, or_false] at hfront
  rcases hfront with rfl | rfl | rfl
  · obtain rfl : k :: ks = back := heq
    refine ⟨?_, fun l hl => hrest l (List.mem_cons_of_mem k hl)⟩
    have := hback k List.mem_cons_self
    simp only [List.mem_cons, List.not_mem_nil, or_false, not_or] at this
    simp [this]
  · obtain ⟨rfl, rfl⟩ := List.cons.inj heq
    exact ⟨by decide, hrest⟩
  · obtain ⟨rfl, rfl⟩ := List.cons.inj heq
    exact ⟨by decide, hrest⟩

theorem Grammar.Attempt.ne_eof {ks : List Kind} (h : Attempt ks) : ∀ k ∈ ks, k ≠ .eof := by
  obtain ⟨front, back, rfl, hfront, hback⟩ := h
  rw [List.forall_mem_append]
  constructor
  · simp only [List.mem_cons, List.not_mem_nil, or_false] at hfront
    rcases hfront with rfl | rfl | rfl <;> decide
  · rintro k hk rfl
    exact hback _ hk (by decide)

/-- The first of its kind is where it is. -/
theorem Token.append_cons_inj {k : Kind} {ts us rest rest' : List Token} {t u : Token}
    (hts : ∀ x ∈ ts, x.kind ≠ k) (hus : ∀ x ∈ us, x.kind ≠ k) (ht : t.kind = k) (hu : u.kind = k)
    (h : ts ++ t :: rest = us ++ u :: rest') : ts = us ∧ t = u := by
  induction ts generalizing us with
  | nil =>
      cases us with
      | nil => exact ⟨rfl, (List.cons.inj h).1⟩
      | cons x us => exact absurd ((List.cons.inj h).1 ▸ ht) (hus x List.mem_cons_self)
  | cons x ts ih =>
      cases us with
      | nil => exact absurd ((List.cons.inj h).1 ▸ hu) (hts x List.mem_cons_self)
      | cons y us =>
          obtain ⟨rfl, hrest⟩ := List.cons.inj h
          obtain ⟨rfl, htu⟩ := ih (fun y hy => hts y (List.mem_cons_of_mem x hy))
            (fun y hy => hus y (List.mem_cons_of_mem x hy)) hrest
          exact ⟨rfl, htu⟩

namespace Reader

variable {r s u : Reader} {t : Token} {ts rest : List Token} {closers : List Kind}

/-- Where a `;` was passed a statement may start. -/
theorem toBoundary_of_last (h : r.last = .semicolon) : r.toBoundary = r := by
  cases hr : r.rest with
  | nil => exact toBoundary_nil hr
  | cons t ts => rw [toBoundary_cons hr, if_pos (.inl h)]

/-- What is no boundary is skipped, up to the next `;` and with it. -/
theorem passes_toBoundary_of_rest (hr : r.rest = ts ++ t :: rest) (hlast : r.last ≠ .semicolon)
    (hts : ∀ u ∈ ts, u.kind ≠ .semicolon ∧ u.kind ∉ boundaries) (ht : t.kind = .semicolon) :
    r.Passes r.toBoundary (ts ++ [t]) [] := by
  induction ts generalizing r with
  | nil =>
      have hskip : ¬(r.last = .semicolon ∨ t.kind ∈ boundaries) := by
        rw [ht]
        rintro (h | h)
        · exact hlast h
        · exact absurd h (by decide)
      have hlast' : r.advance.last = .semicolon := (last_advance hr).trans ht
      rw [toBoundary_cons hr, if_neg hskip, toBoundary_of_last hlast']
      exact .advance hr
  | cons x ts ih =>
      obtain ⟨⟨hx, hxb⟩, hts⟩ := List.forall_mem_cons.mp hts
      have hskip : ¬(r.last = .semicolon ∨ x.kind ∈ boundaries) := by
        rintro (h | h)
        · exact hlast h
        · exact hxb h
      have hadv := Passes.advance hr
      have hrest : r.advance.rest = ts ++ t :: rest :=
        List.tail_eq_of_cons_eq (hadv.rest.symm.trans hr)
      rw [toBoundary_cons hr, if_neg hskip]
      exact hadv.trans (ih hrest (by rwa [last_advance hr]) hts)

/-- Where no `;` was passed, the next one is still to come. -/
theorem Short.rest_eq (h : r.Short s ds) (hr : r.rest = ts ++ t :: rest)
    (ht : t.kind = .semicolon) :
    ∃ us vs, ts = us ++ vs ∧ s.rest = vs ++ t :: rest ∧ r.Passes s us ds := by
  obtain ⟨us, hp, hus⟩ := h.passes
  rcases List.append_eq_append_iff.mp (hp.rest.symm.trans hr) with ⟨vs, rfl, hvs⟩ | ⟨vs, rfl, hs⟩
  · exact ⟨us, vs, rfl, hvs, hp⟩
  · cases vs with
    | nil => exact ⟨ts, [], (List.append_nil ts).symm, hs.symm, by simpa using hp⟩
    | cons y vs =>
        obtain ⟨rfl, -⟩ := List.cons.inj hs
        exact absurd ht (hus t (by simp))

/-- A statement that is read up to its `;` is one of the grammar. -/
theorem Over.statement {x : Token} {st : Stmt} {hs : u.rest.length < s.rest.length}
    (h : s.Over u) (hx : r.Passes s [x] []) (hst : s.stmt x = .ok st u hs)
    (hr : s.rest = ts ++ t :: rest) (hts : ∀ y ∈ ts, y.kind ≠ .semicolon)
    (ht : t.kind = .semicolon) : Grammar.Statement ((x :: (ts ++ [t])).map Token.kind) := by
  obtain ⟨us, t', hp, hus, ht'⟩ := h
  obtain ⟨rfl, rfl⟩ := Token.append_cons_inj hts hus ht ht'
    (hr.symm.trans (by simpa using hp.rest))
  have hpass := hx.trans hp
  have hreads := reads_stmt hx fun u _ closers => reads_block closers u
  rw [hst] at hreads
  -- Nothing was found, so all the tokens are kept.
  obtain ⟨vs, es, hpass', hkept⟩ := hreads
  have hes : es = [] := List.append_cancel_left (hpass'.found.symm.trans hpass.found)
  have hvs : vs = x :: (ts ++ [t]) := List.append_cancel_right (hpass'.rest.symm.trans hpass.rest)
  have hwords : st.words = vs.map Token.word := hkept.whole.mpr (by simp [hes])
  have hsentence := st.sentence
  have hkinds : Word.tokenKind ∘ Token.word = Token.kind := funext Token.tokenKind_word
  rwa [hwords, hvs, Word.kinds, List.map_map, hkinds] at hsentence

/-- **Tokens that are no statement are skipped for one diagnostic**, up to the `;` behind them and
with it. -/
theorem leads_of_attempt (hr : r.rest = ts ++ t :: rest) (hl : r.Legible)
    (hts : Grammar.Attempt (ts.map Token.kind)) (ht : t.kind = .semicolon)
    (hno : ¬ Grammar.Statement ((ts ++ [t]).map Token.kind)) (hsub : closers ⊆ [.kwElse, .kwEnd]) :
    ∃ u d, r.Leads closers u [] ∧ r.Passes u (ts ++ [t]) [d] := by
  cases ts with
  | nil =>
      -- Where the `;` is all, it is what is found in place of a statement.
      obtain ⟨hlt, hn⟩ := next?_eq hr
      have hst : r.advance.stmt t =
          .fail (r.advance.report (.expected .statement t.kind) t.span) (Nat.le_refl _) := by
        rw [stmt]
        simp only [ht]
      have hlead : r.Leads closers _ [] :=
        leads_of_fail hn (not_closes hsub (by rw [ht]; decide)) hst
      have hlast : (r.advance.report (.expected .statement t.kind) t.span).last = .semicolon :=
        (last_advance hr).trans ht
      rw [toBoundary_of_last hlast] at hlead
      exact ⟨_, _, hlead, (Passes.advance hr).trans (.report _ _ _)⟩
  | cons x ts =>
      obtain ⟨hx, hts⟩ := hts.cons
      rw [List.forall_mem_map] at hts
      simp only [List.mem_cons, List.not_mem_nil, or_false, not_or] at hx
      obtain ⟨hxs, hxif, hxwhile, hxelse, hxend, hxdef, -⟩ := hx
      obtain ⟨hlt, hn⟩ := next?_eq hr
      have hadv := Passes.advance hr
      have hrest : r.advance.rest = ts ++ t :: rest :=
        List.tail_eq_of_cons_eq (hadv.rest.symm.trans hr)
      have honce := finishes_stmt hxif hxwhile r.advance ((short_next? hn hxs).legible hl)
      cases hst : r.advance.stmt x with
      | ok st u hu =>
          rw [hst] at honce
          exact absurd (honce.statement hadv hst hrest (fun y hy => (hts y hy).1) ht) hno
      | fail u hu =>
          rw [hst] at honce
          obtain ⟨d, hshort⟩ := honce
          -- The reader gave up on the way to the `;` and goes on behind it.
          obtain ⟨us, vs, rfl, hurest, hp⟩ := hshort.rest_eq hrest ht
          have hlast : u.last ≠ .semicolon := fun h =>
            hxs ((last_advance hr).symm.trans (hshort.last h))
          have hskip := passes_toBoundary_of_rest hurest hlast
            (fun y hy => hts y (List.mem_append_right us hy)) ht
          refine ⟨_, d, leads_of_fail hn (not_closes hsub (by simp [hxdef, hxelse, hxend])) hst, ?_⟩
          simpa using (hadv.trans hp).trans hskip

/-! ### In a block -/

variable {js us vs ws : List Word} {ds : List Diagnostic}

/-- The words are skipped for one diagnostic where a statement may start. -/
def Skips (js : List Word) : Prop :=
  ∀ ⦃closers : List Kind⦄ ⦃r : Reader⦄ ⦃ws : List Word⦄ ⦃ds : List Diagnostic⦄,
    closers ⊆ [.kwElse, .kwEnd] → r.Faces (js ++ ws) ds →
      ∃ u d, r.Leads closers u [] ∧ u.Faces ws (ds ++ [d])

theorem skips_of_attempt (hts : Grammar.Attempt (ts.map Token.kind)) (ht : t.kind = .semicolon)
    (hno : ¬ Grammar.Statement ((ts ++ [t]).map Token.kind)) :
    Skips ((ts ++ [t]).map Token.word) := by
  intro closers r ws ds hsub h
  -- The reader faces other tokens than these, but of the same words and so of the same kinds.
  obtain ⟨us, rest, hr, hus, hrest⟩ := List.map_eq_append_iff.mp h.words
  rw [List.map_append, List.map_singleton] at hus
  obtain ⟨ts', us', rfl, hts', hus'⟩ := List.map_eq_append_iff.mp hus
  obtain ⟨t', rfl, ht'⟩ := List.map_eq_singleton_iff.mp hus'
  have hkinds : ts'.map Token.kind = ts.map Token.kind := by
    have := congrArg (List.map Word.tokenKind) hts'
    simpa [Function.comp_def] using this
  have hkind : t'.kind = t.kind := by
    have := congrArg Word.tokenKind ht'
    simpa using this
  rw [List.append_assoc, List.singleton_append] at hr
  obtain ⟨u, d, hlead, hp⟩ := leads_of_attempt hr h.readable (hkinds ▸ hts) (hkind.trans ht)
    (by simpa [hkinds, hkind] using hno) hsub
  have hurest : u.rest = rest :=
    List.append_cancel_left (hp.rest.symm.trans (hr.trans (by simp)))
  refine ⟨u, d, hlead, by rw [hurest, hrest], fun x hx => h.readable x ?_, ?_⟩
  · rw [hp.rest]
    exact List.mem_append_right _ hx
  · rw [hp.found, h.found]

/-- What a block is led to, and the block read from there. -/
theorem Leads.gives {front front' back : List Stmt} (h : r.Leads closers s front')
    (hfront : ProcScript.Block.bare front' = ProcScript.Block.bare front)
    (hb : (s.block closers).Gives back ws ds) :
    (r.block closers).Gives (front ++ back) ws ds := by
  refine ⟨?_, h.after ▸ hb.2⟩
  rw [h.stmts, ProcScript.Block.bare_append, ProcScript.Block.bare_append, hfront, hb.1]

theorem Leads.gives_cons {st st' : Stmt} {back : List Stmt} (h : r.Leads closers s [st'])
    (hst : st'.bare = st.bare) (hb : (s.block closers).Gives back ws ds) :
    (r.block closers).Gives (st :: back) ws ds := by
  have hfront : ProcScript.Block.bare [st'] = ProcScript.Block.bare [st] := by
    simp only [ProcScript.Block.bare, hst]
  exact h.gives hfront hb

mutual

/-- **A block is read as it is without the words at the place.** -/
theorem mends_block (hj : Skips js) : ∀ {depth : Nat} {ss : List Stmt} {us vs : List Word},
    ProcScript.Block.Parted depth ss us vs → ∀ {closers : List Kind} {r : Reader}
      {ws : List Word} {ds : List Diagnostic}, Closes closers ws →
      r.Faces (us ++ (js ++ (vs ++ ws))) ds → ∃ d, (r.block closers).Gives ss ws (ds ++ [d])
  | _, _, _, _, .here h h', closers, r, ws, ds, hc, hr => by
      obtain ⟨s, front', hlead, hfront, hs⟩ := Faces.leads h hc.1 hr
      obtain ⟨u, d, hskip, hu⟩ := hj hc.1 hs
      exact ⟨d, (hlead.trans hskip).gives (by simpa using hfront) (Faces.block _ h' hc hu)⟩
  | _, _, _, _, .inside h hs h', closers, r, ws, ds, hc, hr => by
      simp only [List.append_assoc] at hr
      obtain ⟨s, front', hlead, hfront, hs'⟩ := Faces.leads h hc.1 hr
      obtain ⟨u, v, hlead', hv, d, hu⟩ := (mends_stmt hj hs hs').leads hc.1
      exact ⟨d, hlead.gives hfront (hlead'.gives_cons hv (Faces.block _ h' hc hu))⟩

theorem mends_stmt (hj : Skips js) : ∀ {depth : Nat} {st : Stmt} {us vs : List Word},
    Stmt.Parted depth st us vs → ∀ {r : Reader} {ws : List Word} {ds : List Diagnostic},
      r.Faces (us ++ (js ++ (vs ++ ws))) ds →
      r.EndsStmt (fun v u => v.bare = st.bare ∧ ∃ d, u.Faces ws (ds ++ [d])) fun _ => False
  | _, _, _, _, .ifThen he hb, r, ws, ds, h => by
      simp only [List.cons_append, List.append_assoc, List.nil_append] at h
      refine h.endsIf he fun start v s hv hs => ?_
      obtain ⟨d, hbody⟩ := mends_block hj hb
        (closes_end [.kwElse, .kwEnd] (by decide) (by decide)) hs
      exact (hbody.ifThen hv).imp fun _ _ ⟨hst, hu⟩ => ⟨hst, d, hu⟩
  | _, _, _, _, .ifElse he hb ho, r, ws, ds, h => by
      simp only [List.cons_append, List.append_assoc, List.nil_append] at h
      refine h.endsIf he fun start v s hv hs => ?_
      obtain ⟨d, hbody⟩ := mends_block hj hb closes_else hs
      exact (hbody.ifElse hv fun s hs =>
          Faces.block _ ho (closes_end [.kwEnd] (by decide) (by decide)) hs).imp
        fun _ _ ⟨hst, hu⟩ => ⟨hst, d, hu⟩
  | _, _, _, _, .orElse he hb ho, r, ws, ds, h => by
      simp only [List.cons_append, List.append_assoc, List.nil_append] at h
      refine h.endsIf he fun start v s hv hs => ?_
      refine (Faces.block _ hb closes_else hs).behindElse fun bs s hbs hs => ?_
      obtain ⟨d, hother⟩ := mends_block hj ho (closes_end [.kwEnd] (by decide) (by decide)) hs
      refine hother.closed.imp ?_
      rintro _ u ⟨⟨ss, x, rfl, hss⟩, hu⟩
      exact ⟨by simp only [Stmt.bare, hv, hbs, hss], d, hu⟩
  | _, _, _, _, .whileDo he hb, r, ws, ds, h => by
      simp only [List.cons_append, List.append_assoc, List.nil_append] at h
      refine h.endsWhile he fun start v s hv hs => ?_
      obtain ⟨d, hbody⟩ := mends_block hj hb (closes_end [.kwEnd] (by decide) (by decide)) hs
      exact (hbody.whileDo hv).imp fun _ _ ⟨hst, hu⟩ => ⟨hst, d, hu⟩

end

/-! ### In a script -/

/-- A procedure is read as it is without the words at the place. -/
theorem mends_procedure (hj : Skips js) {depth : Nat} {p : Procedure}
    (hp : p.Parted depth us vs) (h : r.Faces (us ++ (js ++ (vs ++ ws))) ds) :
    ∃ (q : Procedure) (s : Reader) (d : Diagnostic),
      r.procedures = (q :: s.procedures.1, s.procedures.2) ∧ q.bare = p.bare ∧
      s.Faces ws (ds ++ [d]) := by
  obtain ⟨hb⟩ := hp
  simp only [List.cons_append, List.append_assoc, List.nil_append] at h
  obtain ⟨t, s, hlt, hn, hw, -, hs⟩ := h.next?
  have hg : (s.procedure t.span).Gives fun q u =>
      q.bare = p.bare ∧ ∃ d, u.Faces ws (ds ++ [d]) := by
    refine hs.procedure_body fun make s hmake hs => ?_
    obtain ⟨d, hbody⟩ := mends_block hj hb (closes_end [.kwEnd] (by decide) (by decide)) hs
    refine Outcome.Gives.imp hbody.closed ?_
    rintro _ u ⟨⟨ss, x, rfl, hss⟩, hu⟩
    exact ⟨hmake ss x hss, d, hu⟩
  obtain ⟨q, u, hu, hread, hq, d, hfaces⟩ := Outcome.gives_iff.mp hg
  exact ⟨q, u, d, procedures_of_ok hn (Token.kind_of_word hw) hread, hq, hfaces⟩

end Reader

namespace Script

variable {ts : List Token} {depth : Nat}

/-- The tokens before the first `eof` are read. -/
theorem Gap.rest_ofTokens (g : Gap ts depth) {us : List Token} (hus : ∀ t ∈ us, t.kind ≠ .eof) :
    (Reader.ofTokens (g.insert us)).rest =
      g.earlier ++ (g.before ++ (us ++ (g.behind ++ g.later))) := by
  have hinside := g.inside
  simp only [List.forall_mem_append] at hinside
  obtain ⟨⟨⟨he, hb⟩, ha⟩, hl⟩ := hinside
  have hall : ∀ t ∈ g.earlier ++ (g.before ++ (us ++ (g.behind ++ g.later))), t.kind ≠ .eof := by
    simp only [List.forall_mem_append]
    exact ⟨he, hb, hus, ha, hl⟩
  have hrest := g.takeWhile_rest hall
  simpa only [Reader.ofTokens, Gap.insert, List.append_assoc] using hrest

/-- The first token is not behind the place. -/
theorem Gap.current_ofTokens (g : Gap ts depth) {us : List Token}
    (hus : ∀ t ∈ us, t.kind ≠ .eof) :
    (Reader.ofTokens (g.insert us)).current = (Reader.ofTokens ts).current := by
  obtain ⟨t, before, hb, -⟩ := g.before_eq_cons
  have hts := g.rest_ofTokens (List.forall_mem_nil _)
  rw [g.insert_nil] at hts
  rw [Reader.current, Reader.current, g.rest_ofTokens hus, hts, hb]
  cases g.earlier <;> rfl

/-- In tokens that are read without a diagnostic, the reader faces what is put in at the place
between the words that were there. -/
theorem Gap.faces_ofTokens (g : Gap ts depth) (h : (ofTokens ts).2 = []) {us : List Token}
    (hus : ∀ t ∈ us, t.kind ≠ .eof) (hr : ∀ t ∈ us, t.Readable) :
    (Reader.ofTokens (g.insert us)).Faces
      (g.earlier.map Token.word ++ (g.before.map Token.word ++ (us.map Token.word ++
        (g.behind.map Token.word ++ g.later.map Token.word)))) [] := by
  have hreadable := g.readable h
  simp only [List.forall_mem_append] at hreadable
  obtain ⟨⟨⟨he, hb⟩, ha⟩, hl⟩ := hreadable
  refine ⟨by simp only [g.rest_ofTokens hus, List.map_append], ?_, rfl⟩
  rw [g.rest_ofTokens hus]
  simp only [List.forall_mem_append]
  exact ⟨he, hb, hr, ha, hl⟩

/-- What is skipped at the place changes nothing else. -/
theorem Gap.procedures_insert (g : Gap ts depth) (h : (ofTokens ts).2 = []) {us : List Token}
    (hus : ∀ t ∈ us, t.kind ≠ .eof) (hr : ∀ t ∈ us, t.Readable)
    (hskip : Reader.Skips (us.map Token.word)) :
    (∃ d, (ofTokens (g.insert us)).2 = [d]) ∧
      (ofTokens (g.insert us)).1.procedures.map Procedure.bare =
        (ofTokens ts).1.procedures.map Procedure.bare := by
  obtain ⟨ps, p, qs, hnested, hp, hps, hqs⟩ := g.trees
  have hnested' := hnested
  simp only [List.forall_mem_append, List.forall_mem_cons] at hnested'
  obtain ⟨hnps, -, hnqs⟩ := hnested'
  -- What is read without the words, and what is read with them.
  have hfaces := g.faces_ofTokens h (List.forall_mem_nil _) (List.forall_mem_nil _)
  have hfaces' := g.faces_ofTokens h hus hr
  rw [g.insert_nil] at hfaces
  rw [← hps, ← hqs] at hfaces hfaces'
  have hwords : (ps ++ p :: qs).flatMap Procedure.words =
      ps.flatMap Procedure.words ++ (g.before.map Token.word ++ (List.map Token.word [] ++
        (g.behind.map Token.word ++ qs.flatMap Procedure.words))) := by
    simp [hp.nested.2]
  obtain ⟨horiginal, -⟩ := Reader.Faces.procedures hnested (hwords ▸ hfaces)
  obtain ⟨s, ps', hread, hps', hs⟩ := hfaces'.leads_procedures hnps
  obtain ⟨p', u, d, hread', hp', hu⟩ := Reader.mends_procedure hskip hp hs
  obtain ⟨hqs', hfound⟩ := Reader.Faces.procedures hnqs hu
  rw [hread'] at hread
  refine ⟨⟨d, (congrArg (fun r => r.2.found) hread).trans hfound⟩, ?_⟩
  calc (ofTokens (g.insert us)).1.procedures.map Procedure.bare
      = (ps' ++ p' :: u.procedures.1).map Procedure.bare :=
        congrArg (fun r => r.1.map Procedure.bare) hread
    _ = (ps ++ p :: qs).map Procedure.bare := by
        simp only [List.map_append, List.map_cons, hps', hp', hqs']
    _ = (ofTokens ts).1.procedures.map Procedure.bare := horiginal.symm

/-- **One malformed statement costs one diagnostic and nothing else.**  Into tokens that are read
without a diagnostic, others are put where a statement may start: an attempted statement and the
`;` behind it, with all literals in range, which are no statement of the grammar.  Then one
diagnostic is found, and the script that is read is the same up to spans and numbers. -/
theorem ofTokens_insert (h : (ofTokens ts).2 = []) (g : Gap ts depth) {j : List Token}
    {semicolon : Token} (hj : Grammar.Attempt (j.map Token.kind))
    (hsemicolon : semicolon.kind = .semicolon) (hr : ∀ t ∈ j, t.Readable)
    (hno : ¬ Grammar.Statement ((j ++ [semicolon]).map Token.kind)) :
    (∃ d, (ofTokens (g.insert (j ++ [semicolon]))).2 = [d]) ∧
      (ofTokens (g.insert (j ++ [semicolon]))).1.bare = (ofTokens ts).1.bare := by
  have heof : ∀ t ∈ j ++ [semicolon], t.kind ≠ .eof := by
    rw [List.forall_mem_append, List.forall_mem_singleton, hsemicolon]
    exact ⟨fun t ht => hj.ne_eof t.kind (List.mem_map_of_mem ht), by decide⟩
  have hreadable : ∀ t ∈ j ++ [semicolon], t.Readable := by
    rw [List.forall_mem_append, List.forall_mem_singleton]
    refine ⟨hr, fun hk => ?_⟩
    rw [hsemicolon] at hk
    cases hk
  obtain ⟨hfound, hprocedures⟩ :=
    g.procedures_insert h heof hreadable (Reader.skips_of_attempt hj hsemicolon hno)
  have hsource : (ofTokens (g.insert (j ++ [semicolon]))).1.source = (ofTokens ts).1.source :=
    congrArg (fun t => t.span.source) (g.current_ofTokens heof)
  refine ⟨hfound, ?_⟩
  rw [Script.bare, Script.bare, hsource, hprocedures]

/-- In the `while` it is read over `var x 7 ;`. -/
theorem spinning_insert :
    let j := Token.lines "b" [(.kwVar, "var"), (.identifier, "x"), (.intLiteral, "7")]
    let semicolon : Token := ⟨.semicolon, ";", .none⟩
    (ofTokens spinning).2 = [] ∧ Grammar.Attempt (j.map Token.kind) ∧ (∀ t ∈ j, t.Readable) ∧
      ¬ Grammar.Statement ((j ++ [semicolon]).map Token.kind) ∧
      (∃ d, (ofTokens (insideSpinning.insert (j ++ [semicolon]))).2 = [d]) ∧
      (ofTokens (insideSpinning.insert (j ++ [semicolon]))).1.bare =
        (ofTokens spinning).1.bare := by
  intro j semicolon
  have h : (ofTokens spinning).2 = [] := by cbv
  have hj : Grammar.Attempt (j.map Token.kind) := ⟨[.kwVar], _, rfl, by decide, by decide⟩
  have hr : ∀ t ∈ j, t.Readable := by
    unfold Token.Readable
    decide
  have hno : ¬ Grammar.Statement ((j ++ [semicolon]).map Token.kind) := by
    intro hs
    cases hs
  exact ⟨h, hj, hr, hno, ofTokens_insert h insideSpinning hj rfl hr hno⟩

end Script

end ProcScript
