import ProcScript.Proofs.Syntax.Leading

/-!
# Syntax — unclosed blocks

Where the tokens end inside of blocks, an `end` is missed for each of them.  The innermost block
ends where the tokens do, so its statement fails there; the block around it leaves that statement
out and has nothing more to read either, and so on outwards, until the procedure fails
(`Reader.Spent`).  It is shown by induction on the place.

**Unclosed blocks are reported once each, and the other procedures are read as ever**
(`Script.ofTokens_cut`): what is missed at the end of the tokens is missed at the `def` where the
next procedure stands behind them (`Reader.procedures_extend`).
-/

namespace ProcScript

/-- The `end` that is missing before `t`. -/
def Diagnostic.missingEnd (t : Token) : Diagnostic :=
  .syntaxError (.expected (.token .kwEnd) t.kind) t.span

/-- What is missing at the end is missing where another token stands there. -/
theorem Diagnostic.facing_missingEnd {stop : Token} (t : Token) (h : stop.kind = .eof) :
    (missingEnd stop).facing t = missingEnd t := by
  rw [missingEnd, h]
  rfl

namespace Reader

variable {r s : Reader} {closers : List Kind} {ws us vs : List Word} {ds : List Diagnostic}
  {n : Nat}

/-- Nothing is to come, and behind `ds` it was found `n` times that an `end` is missing there. -/
structure Spent (r : Reader) (n : Nat) (ds : List Diagnostic) : Prop where
  rest : r.rest = []
  found : r.found = ds ++ List.replicate n (.missingEnd r.stop)

theorem Faces.spent (h : r.Faces [] ds) : r.Spent 0 ds :=
  ⟨List.map_eq_nil_iff.mp h.words, by simpa using h.found⟩

theorem block_of_nil (closers : List Kind) (h : r.rest = []) : (r.block closers).after = r := by
  have hn : r.next? = none := next?_eq_none_iff.mpr h
  simp only [block.eq_def closers r, hn]

/-- One more `end` is missing. -/
theorem Spent.expect (h : r.Spent n ds) :
    (r.expect .kwEnd).Ends (fun _ _ => False) fun u => u.Spent (n + 1) ds := by
  have hn : r.next? = none := next?_eq_none_iff.mpr h.rest
  have hcurrent : r.current = r.stop := by simp [current, h.rest]
  simp only [Reader.expect, hn]
  refine ⟨h.rest, ?_⟩
  calc r.found ++ [.missingEnd r.current]
      = ds ++ List.replicate n (.missingEnd r.stop) ++ [.missingEnd r.stop] := by
        rw [hcurrent, h.found]
    _ = ds ++ List.replicate (n + 1) (.missingEnd r.stop) := by
        rw [List.replicate_succ', List.append_assoc]

theorem Spent.eat?_eq_none (h : r.Spent n ds) (k : Kind) : r.eat? k = none := by
  have hn : r.next? = none := next?_eq_none_iff.mpr h.rest
  simp only [eat?, hn]

section
variable {α : Type} {make : List Stmt → Span → α} {start : Span} {v : Expr}

theorem Spent.closed (h : (r.block [.kwEnd]).after.Spent n ds) :
    (r.closed make start).Ends (fun _ _ => False) fun u => u.Spent (n + 1) ds :=
  Block.ends_bind (Outcome.Ends.map h.expect)

theorem Spent.branches (h : (r.block [.kwElse, .kwEnd]).after.Spent n ds) :
    (r.branches v start).Ends (fun _ _ => False) fun u => u.Spent (n + 1) ds := by
  refine Block.ends_bind ?_
  rw [h.eat?_eq_none]
  exact Outcome.Ends.map h.expect

end

mutual

/-- **Each block around the place is missed an `end`.** -/
theorem spends_block : ∀ {depth : Nat} {ss : List Stmt} {us vs : List Word},
    ProcScript.Block.Parted depth ss us vs → ∀ {closers : List Kind} {r : Reader}
      {ds : List Diagnostic}, closers ⊆ [.kwElse, .kwEnd] → r.Faces us ds →
      (r.block closers).after.Spent depth ds
  | _, _, _, _, .here h h', closers, r, ds, hsub, hr => by
      rw [← List.append_nil (ProcScript.Block.words _)] at hr
      obtain ⟨s, front, hlead, -, hs⟩ := Faces.leads h hsub hr
      rw [hlead.after, block_of_nil closers hs.spent.rest]
      exact hs.spent
  | _, _, _, _, .inside h hs h', closers, r, ds, hsub, hr => by
      obtain ⟨s, front, hlead, -, hs'⟩ := Faces.leads h hsub hr
      obtain ⟨u, hlead', hu⟩ := (spends_stmt hs hs').leads_of_lost hsub
      rw [toBoundary_nil hu.rest] at hlead'
      rw [hlead.after, hlead'.after, block_of_nil closers hu.rest]
      exact hu

theorem spends_stmt : ∀ {depth : Nat} {st : Stmt} {us vs : List Word},
    Stmt.Parted depth st us vs → ∀ {r : Reader} {ds : List Diagnostic}, r.Faces us ds →
      r.EndsStmt (fun _ _ => False) fun u => u.Spent depth ds
  | _, _, _, _, .ifThen he hb, r, ds, h =>
      h.endsIf he fun _ _ _ _ hs => (spends_block hb (by decide) hs).branches
  | _, _, _, _, .ifElse he hb ho, r, ds, h =>
      h.endsIf he fun _ _ _ _ hs => (spends_block hb (by decide) hs).branches
  | _, _, _, _, .orElse he hb ho, r, ds, h =>
      h.endsIf he fun _ _ _ _ hs => (Faces.block _ hb closes_else hs).behindElse
        fun _ _ _ hs => (spends_block ho (by decide) hs).closed
  | _, _, _, _, .whileDo he hb, r, ds, h =>
      h.endsWhile he fun _ _ _ _ hs => (spends_block hb (by decide) hs).closed

end

/-- No procedure is read. -/
theorem spends_procedure {depth : Nat} {p : Procedure} (hp : p.Parted depth us vs)
    (h : r.Faces us ds) : r.procedures.1 = [] ∧ r.procedures.2.Spent depth ds := by
  obtain ⟨hb⟩ := hp
  obtain ⟨t, s, hlt, hn, hw, -, hs⟩ := h.next?
  have hends : (s.procedure t.span).Ends (fun _ _ => False) fun u => u.Spent _ ds :=
    hs.procedure_body fun make s _ hs => (spends_block hb (by decide) hs).closed
  cases hread : s.procedure t.span with
  | ok q u hu =>
      rw [hread] at hends
      exact hends.elim
  | fail u hu =>
      rw [hread] at hends
      have hprocedures : r.procedures = ([], u) := by
        rw [procedures.eq_def r]
        simp only [hn, Token.kind_of_word hw, Word.tokenKind, if_true, hread, toDef_nil hends.rest]
        exact procedures_nil hends.rest
      rw [hprocedures]
      exact ⟨rfl, hends⟩

/-! ### Tokens behind others -/

/-- The reader with `ts` behind its tokens and `stop` behind these.  What was found at the end is
found where they start. -/
def extend (r : Reader) (ts : List Token) (stop : Token) : Reader where
  last := r.last
  rest := r.rest ++ ts
  stop := stop
  nextId := r.nextId
  found := r.found.map (Diagnostic.facing (ts.head?.getD stop))

variable {ts as bs : List Token} {stop : Token}

theorem extend_append (h : r.found = []) :
    r.extend (as ++ bs) stop = ({ r with rest := r.rest ++ as } : Reader).extend bs stop := by
  simp [extend, h]

theorem ofTokens_extend (h : (ofTokens ts).rest = as ++ bs) :
    ofTokens ts = (ofTokens as).extend bs (ofTokens ts).stop := by
  have hin : ∀ t ∈ as, t.kind ≠ .eof := fun t ht =>
    ofTokens_inside ts t (h ▸ List.mem_append_left bs ht)
  have has : (ofTokens as).rest = as := List.takeWhile_eq_self_iff.mpr (by simpa using hin)
  rw [extend, has, ← h]
  rfl

/-- **Tokens that start with a `def` are read behind others.**  What is read of the others is the
same, and what is read behind them is read from the end of that reading on. -/
theorem procedures_extend (hin : ∀ t ∈ r.rest, t.kind ≠ .eof) (hends : r.stop.kind = .eof)
    (hts : ∀ t ∈ ts.head?, t.kind = .kwDef) (hstop : stop.kind = .eof) :
    (r.extend ts stop).procedures = (r.procedures.1 ++
      (r.procedures.2.extend ts stop).procedures.1,
        (r.procedures.2.extend ts stop).procedures.2) := by
  let S : Setting := ⟨.same, ts, stop, [], hts, hstop⟩
  have hview : ∀ u : Reader, S.view u = u.extend ts stop := fun u => by
    have hretell : S.retell = Diagnostic.facing (ts.head?.getD stop) := by
      funext d
      exact congrArg _ d.relabel_same
    have hrest : u.rest.map (Token.relabel S.label) = u.rest := List.map_id'' Token.relabel_same _
    rw [Setting.view, hretell, hrest]
    rfl
  have hshows : S.Shows r (r.extend ts stop) := ⟨(hview r).symm, hin, hends⟩
  obtain ⟨u, hu, hread⟩ := hshows.procedures
  have hsame : r.procedures.1.map (Procedure.relabel S.label) = r.procedures.1 :=
    List.map_id'' Procedure.relabel_same _
  rw [hread, hsame, hu.eq, hview]

theorem procedures_stop (r : Reader) : r.procedures.2.stop = r.stop := by
  obtain ⟨us, ds, hp, -⟩ := trail_procedures r
  exact hp.stop

/-- Where nothing is found, all tokens are kept. -/
theorem words_procedures (h : r.procedures.2.found = []) :
    r.procedures.1.flatMap Procedure.words = r.rest.map Token.word := by
  obtain ⟨us, es, hp, hkept⟩ := trail_procedures r
  have hes : es = [] := (List.append_eq_nil_iff.mp (hp.found.symm.trans h)).2
  have hus : r.rest = us := by rw [hp.rest, procedures_rest, List.append_nil]
  rw [hus]
  exact hkept.whole.mpr (by simp [hes])

/-- Where the reading of `as` ends, before `bs`. -/
def between (as bs : List Token) : Reader := { (ofTokens as).procedures.2 with rest := bs }

theorem stop_between (as bs : List Token) : (between as bs).stop.kind = .eof := by
  have hstop : (between as bs).stop = (ofTokens as).stop := procedures_stop (ofTokens as)
  rw [hstop]
  exact ofTokens_stop as

/-- Tokens in three parts, the last two of which start with a `def`, are read part by part, where
nothing is found in the first. -/
theorem procedures_ofTokens {cs : List Token} (h : (ofTokens ts).rest = as ++ (bs ++ cs))
    (hbs : ∀ t ∈ (bs ++ cs).head?, t.kind = .kwDef) (hcs : ∀ t ∈ cs.head?, t.kind = .kwDef)
    (hfound : (ofTokens as).procedures.2.found = []) :
    ∃ u, u = (between as bs).procedures.2.extend cs (ofTokens ts).stop ∧ u.rest = cs ∧
      (ofTokens ts).procedures = ((ofTokens as).procedures.1 ++
        ((between as bs).procedures.1 ++ u.procedures.1), u.procedures.2) := by
  have hin : ∀ t ∈ as ++ (bs ++ cs), t.kind ≠ .eof := h ▸ ofTokens_inside ts
  have hbetween : ∀ t ∈ (between as bs).rest, t.kind ≠ .eof := fun t ht =>
    hin t (List.mem_append_right as (List.mem_append_left cs ht))
  have hextend : (ofTokens as).procedures.2.extend (bs ++ cs) (ofTokens ts).stop =
      (between as bs).extend cs (ofTokens ts).stop := by
    rw [extend_append hfound, procedures_rest, List.nil_append, between]
  refine ⟨_, rfl, by rw [extend, procedures_rest, List.nil_append], ?_⟩
  rw [ofTokens_extend h, procedures_extend (ofTokens_inside as) (ofTokens_stop as) hbs
    (ofTokens_stop ts), hextend, procedures_extend hbetween (stop_between as bs) hcs
    (ofTokens_stop ts)]
  rfl

/-- Readers that face the same tokens read the same, except that the expressions are numbered from
elsewhere on. -/
theorem procedures_shift (hin : ∀ t ∈ r.rest, t.kind ≠ .eof) (hends : r.stop.kind = .eof)
    (hfound : r.procedures.2.found = []) (hrest : s.rest = r.rest)
    (hstop : r.rest ≠ [] → s.stop = r.stop) :
    ∃ i, s.procedures.1 = r.procedures.1.map (Procedure.relabel (.shift i)) ∧
      s.procedures.2.found = s.found := by
  by_cases h : r.rest = []
  · rw [procedures_nil h, procedures_nil (hrest.trans h)]
    exact ⟨0, rfl, rfl⟩
  · let S : Setting := ⟨.shift (s.nextId - r.nextId), [], r.stop, s.found, Setting.opens_nil, hends⟩
    obtain ⟨us, ds, hp, -⟩ := trail_procedures r
    have hnone : r.found = [] := (List.append_eq_nil_iff.mp (hp.found.symm.trans hfound)).1
    have hsame : r.rest.map (Token.relabel S.label) = r.rest := List.map_id'' Token.relabel_same _
    have hid : S.label.id r.nextId = s.nextId := add_sub_cancel r.nextId s.nextId
    have hview : S.view r = { s with last := r.last } := by
      rw [Setting.view, hsame, hid, hnone, hrest, hstop h]
      simp [S]
    have hshows : S.Shows r { s with last := r.last } := ⟨hview.symm, hin, hends⟩
    have hread := hshows.procedures_of_tail rfl
    rw [procedures_last (hrest ▸ h)] at hread
    rw [hread]
    exact ⟨_, rfl, by simp [Setting.view, hfound, S]⟩

end Reader

namespace Script

variable {ts : List Token} {depth : Nat}

/-- The token behind the place once the procedure is cut off there.  Where there is none, the
tokens end with the last one before the place. -/
def Gap.next (g : Gap ts depth) : Token :=
  (g.later ++ g.rest).head?.getD (.endOfInput ((g.before.getLast?.map Token.span).getD .none))

theorem Gap.kind_next (g : Gap ts depth) :
    g.next.kind = if g.later = [] then .eof else .kwDef := by
  cases hl : g.later with
  | nil =>
      cases hr : g.rest with
      | nil => simp [Gap.next, hl, hr, Token.endOfInput]
      | cons t rest => simp [Gap.next, hl, hr, g.head?_rest t (by simp [hr])]
  | cons t later => simp [Gap.next, hl, g.head?_later t (by simp [hl])]

theorem Gap.rest_cut (g : Gap ts depth) :
    (Reader.ofTokens g.cut).rest = g.earlier ++ (g.before ++ g.later) := by
  have hinside := g.inside
  simp only [List.forall_mem_append] at hinside
  obtain ⟨⟨⟨he, hb⟩, -⟩, hl⟩ := hinside
  have hall : ∀ t ∈ g.earlier ++ (g.before ++ g.later), t.kind ≠ .eof := by
    simp only [List.forall_mem_append]
    exact ⟨he, hb, hl⟩
  simpa only [Reader.ofTokens, Gap.cut, List.append_assoc] using g.takeWhile_rest hall

/-- The tokens end where they did, if one is left behind the place. -/
theorem Gap.stop_cut (g : Gap ts depth) (h : g.later ++ g.rest ≠ []) :
    (Reader.ofTokens g.cut).stop = (Reader.ofTokens ts).stop := by
  have hinside := g.inside
  rw [List.forall_mem_append] at hinside
  have hfront : ∀ t ∈ g.earlier ++ g.before, t.kind ≠ .eof := fun t ht =>
    hinside.1 t (List.mem_append_left g.behind ht)
  have hcut : g.cut = (g.earlier ++ g.before) ++ (g.later ++ g.rest) := by
    simp only [Gap.cut, List.append_assoc]
  have hts : ts = (g.earlier ++ g.before ++ g.behind) ++ (g.later ++ g.rest) := by
    conv_lhs => rw [← g.insert_nil]
    simp only [Gap.insert, List.append_assoc, List.nil_append]
  rw [hcut, Reader.ofTokens_prepend hfront h]
  conv_rhs => rw [hts, Reader.ofTokens_prepend hinside.1 h]

theorem Gap.next_eq (g : Gap ts depth) :
    g.later.head?.getD (Reader.ofTokens g.cut).stop = g.next := by
  cases hl : g.later with
  | cons t later => simp [Gap.next, hl]
  | nil =>
      have hinside := g.inside
      rw [List.append_assoc, List.forall_mem_append] at hinside
      have hcut : g.cut = (g.earlier ++ g.before) ++ g.rest := by simp [Gap.cut, hl]
      cases hr : g.rest with
      | nil =>
          obtain ⟨x, front, hbefore, -⟩ := g.before_eq_cons
          have hfind : (g.earlier ++ g.before).find? (fun t => t.kind = .eof) = none :=
            List.find?_eq_none.mpr fun t ht => by simpa using hinside.1 t ht
          have hlast : (g.earlier ++ g.before).getLast? = g.before.getLast? := by
            simp [List.getLast?_append, hbefore, List.getLast?_cons]
          rw [hcut, hr, List.append_nil, Reader.ofTokens, hfind, hlast]
          simp [Gap.next, hl, hr]
      | cons t rest =>
          have ht : t.kind = .eof := g.head?_rest t (by simp [hr])
          rw [hcut, hr, Reader.ofTokens_prepend hinside.1 (List.cons_ne_nil t rest)]
          simp [Gap.next, hl, hr, Reader.ofTokens, ht]

/-- The procedures before the place are read without a diagnostic. -/
theorem Gap.found_earlier (g : Gap ts depth) (h : (ofTokens ts).2 = []) :
    (Reader.ofTokens g.earlier).rest = g.earlier ∧
      (Reader.ofTokens g.earlier).procedures.2.found = [] := by
  obtain ⟨ps, p, qs, hnested, -, hps, -⟩ := g.trees
  have hin := g.inside
  have hreadable := g.readable h
  simp only [List.forall_mem_append] at hin hreadable hnested
  have hrest : (Reader.ofTokens g.earlier).rest = g.earlier :=
    List.takeWhile_eq_self_iff.mpr (by simpa using hin.1.1.1)
  have hfaces : (Reader.ofTokens g.earlier).Faces (ps.flatMap Procedure.words) [] := by
    rw [hps]
    exact ⟨by rw [hrest], by rw [hrest]; exact hreadable.1.1.1, rfl⟩
  exact ⟨hrest, (hfaces.procedures hnested.1).2⟩

/-- The script as it is read: before the procedure that is parted, there, and behind it. -/
theorem Gap.procedures_ofTokens (g : Gap ts depth) (h : (ofTokens ts).2 = []) :
    ∃ (p : Procedure) (u : Reader),
      (Reader.ofTokens ts).procedures = ((Reader.ofTokens g.earlier).procedures.1 ++
        p :: u.procedures.1, u.procedures.2) ∧
      p.words = (g.before ++ g.behind).map Token.word ∧ u.rest = g.later ∧
      u.stop = (Reader.ofTokens ts).stop := by
  obtain ⟨ps, p, qs, hnested, hp, -, -⟩ := g.trees
  have hreadable := g.readable h
  simp only [List.forall_mem_append, List.forall_mem_cons] at hreadable hnested
  obtain ⟨⟨⟨-, hb⟩, ha⟩, -⟩ := hreadable
  obtain ⟨-, hfound⟩ := g.found_earlier h
  have hrest : (Reader.ofTokens ts).rest = g.earlier ++ ((g.before ++ g.behind) ++ g.later) := by
    rw [← List.append_assoc, ← List.append_assoc]
    exact g.split
  obtain ⟨u, hu, hlater, hread⟩ := Reader.procedures_ofTokens hrest
    (by rw [List.append_assoc]; exact g.head?_before _) g.head?_later hfound
  -- By itself it is read as the tree whose words it has.
  have hfaces : (Reader.between g.earlier (g.before ++ g.behind)).Faces
      ([p].flatMap Procedure.words) [] := by
    refine ⟨?_, List.forall_mem_append.mpr ⟨hb, ha⟩, hfound⟩
    rw [List.flatMap_singleton, hp.nested.2]
    exact List.map_append
  obtain ⟨hbare, hnone⟩ := hfaces.procedures (List.forall_mem_singleton.mpr hnested.2.1)
  obtain ⟨q, hq, -⟩ := List.map_eq_singleton_iff.mp hbare
  have hwords := Reader.words_procedures hnone
  rw [hq, List.flatMap_singleton] at hwords
  rw [hq] at hread
  exact ⟨q, u, hread, hwords, hlater, hu ▸ rfl⟩

/-- The script as it is read once the procedure is cut off. -/
theorem Gap.procedures_cut (g : Gap ts depth) (h : (ofTokens ts).2 = []) :
    ∃ u : Reader,
      (Reader.ofTokens g.cut).procedures = ((Reader.ofTokens g.earlier).procedures.1 ++
        u.procedures.1, u.procedures.2) ∧
      u.found = List.replicate depth (.missingEnd g.next) ∧ u.rest = g.later ∧
      u.stop = (Reader.ofTokens g.cut).stop := by
  obtain ⟨ps, p, qs, -, hp, -, -⟩ := g.trees
  have hreadable := g.readable h
  simp only [List.forall_mem_append] at hreadable
  obtain ⟨⟨⟨-, hb⟩, -⟩, -⟩ := hreadable
  obtain ⟨-, hfound⟩ := g.found_earlier h
  obtain ⟨u, hu, hlater, hread⟩ :=
    Reader.procedures_ofTokens g.rest_cut (g.head?_before _) g.head?_later hfound
  have hfaces : (Reader.between g.earlier g.before).Faces (g.before.map Token.word) [] :=
    ⟨rfl, hb, hfound⟩
  obtain ⟨hnone, hspent⟩ := Reader.spends_procedure hp hfaces
  rw [hnone, List.nil_append] at hread
  refine ⟨u, hread, ?_, hlater, hu ▸ rfl⟩
  have hstop : (Reader.between g.earlier g.before).procedures.2.stop.kind = .eof := by
    rw [Reader.procedures_stop]
    exact Reader.stop_between _ _
  rw [hu, Reader.extend, hspent.found, g.next_eq, List.nil_append, List.map_replicate,
    Diagnostic.facing_missingEnd g.next hstop]

/-- **Unclosed blocks are reported once each.**  From tokens that are read without a diagnostic,
those are cut off that stand between a place where `depth` blocks are open and the end of the
procedure there.  Then it is found `depth` times that an `end` is missing before the next token,
which is the `def` of the next procedure or the end of the tokens.  What is read is the other
procedures; behind the place their expressions are numbered from elsewhere on. -/
theorem ofTokens_cut (h : (ofTokens ts).2 = []) (g : Gap ts depth) :
    let error := SyntaxError.expected (.token .kwEnd) g.next.kind
    (ofTokens g.cut).2 = List.replicate depth (.syntaxError error g.next.span) ∧
      error.message = (if g.later = [] then "expected 'end', found end of input"
        else "expected 'end', found 'def'") ∧
      ∃ ps p qs i, (ofTokens ts).1.procedures = ps ++ p :: qs ∧
        ps.flatMap Procedure.words = g.earlier.map Token.word ∧
        p.words = (g.before ++ g.behind).map Token.word ∧
        qs.flatMap Procedure.words = g.later.map Token.word ∧
        (ofTokens g.cut).1.procedures = ps ++ qs.map (Procedure.relabel (.shift i)) := by
  obtain ⟨p, u, hts, hp, hrest, hstop⟩ := g.procedures_ofTokens h
  obtain ⟨v, hcut, hfound, hrest', hstop'⟩ := g.procedures_cut h
  obtain ⟨hearlier, hearlier'⟩ := g.found_earlier h
  have hnone : u.procedures.2.found = [] := (congrArg (fun r => r.2.found) hts).symm.trans h
  have hin := g.inside
  rw [List.forall_mem_append, ← hrest] at hin
  have hends : u.stop.kind = .eof := hstop ▸ Reader.ofTokens_stop ts
  have hstops : u.rest ≠ [] → v.stop = u.stop := fun hne => by
    rw [hstop, hstop', g.stop_cut fun hnil => hne (hrest.trans (List.append_eq_nil_iff.mp hnil).1)]
  obtain ⟨i, hshift, hend⟩ :=
    Reader.procedures_shift hin.2 hends hnone (hrest'.trans hrest.symm) hstops
  refine ⟨(congrArg (fun r => r.2.found) hcut).trans (hend.trans hfound), ?_,
    (Reader.ofTokens g.earlier).procedures.1, p, u.procedures.1, i, congrArg Prod.fst hts, ?_, hp,
    ?_, ?_⟩
  · rw [g.kind_next]
    split <;> rfl
  · rw [Reader.words_procedures hearlier', hearlier]
  · rw [Reader.words_procedures hnone, hrest]
  · rw [← hshift]
    exact congrArg Prod.fst hcut

/-- Cut off in the `while`, the procedure is missed two `end`s at the `def` behind it. -/
theorem spinning_cut :
    let error := SyntaxError.expected (.token .kwEnd) .kwDef
    (ofTokens spinning).2 = [] ∧
      (ofTokens insideSpinning.cut).2 =
        List.replicate 2 (.syntaxError error ⟨"a", ⟨16, 1, 15⟩, ⟨16, 2, 16⟩⟩) ∧
      error.message = "expected 'end', found 'def'" ∧
      ∃ ps p qs i, (ofTokens spinning).1.procedures = ps ++ p :: qs ∧
        ps.flatMap Procedure.words = insideSpinning.earlier.map Token.word ∧
        p.words = (insideSpinning.before ++ insideSpinning.behind).map Token.word ∧
        qs.flatMap Procedure.words = insideSpinning.later.map Token.word ∧
        (ofTokens insideSpinning.cut).1.procedures =
          ps ++ qs.map (Procedure.relabel (.shift i)) := by
  intro error
  have h : (ofTokens spinning).2 = [] := by cbv
  obtain ⟨hfound, hmessage, hread⟩ := ofTokens_cut h insideSpinning
  exact ⟨h, hfound, hmessage, hread⟩

end Script

end ProcScript
