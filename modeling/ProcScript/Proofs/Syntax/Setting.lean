import ProcScript.Proofs.Syntax.Passage
import ProcScript.Proofs.Syntax.Relabel

/-!
# Syntax — one token list in two settings

What a reader does is a matter of the kinds and texts of the tokens to come.  A `Setting` gives
the tokens other labels, puts others behind them, of which the first is a `def`, and lets
something be found before; `Setting.view` is the reader there.  `S.Shows r r'` says that `r'` is
what `r` is in the setting, and `S.Follows V o o'` that a reading goes the same way there: it
ends alike, with values that `V` relates and with readers of which one shows the other.  There
is one rule for each combinator of readings and one for each single move; where the tokens end,
a `def` behind them does what the end does.
-/

namespace ProcScript

/-- The diagnostic as it is where `t` stands behind the tokens in place of the end. -/
def Diagnostic.facing (t : Token) : Diagnostic → Diagnostic
  | .syntaxError (.expected what .eof) _ => .syntaxError (.expected what t.kind) t.span
  | d                                    => d

/-- A setting in which tokens are read: their labels, the tokens behind them, the `eof` behind
those, and what was found before. -/
structure Setting where
  label : Labelling
  tail : List Token
  stop : Token
  before : List Diagnostic
  opens : ∀ t ∈ tail.head?, t.kind = .kwDef
  closes : stop.kind = .eof

namespace Setting

variable {S : Setting}

theorem opens_nil (t : Token) (h : t ∈ ([] : List Token).head?) : t.kind = .kwDef :=
  absurd h (Option.not_mem_none t)

/-- The first token behind those that are read. -/
def edge (S : Setting) : Token := S.tail.head?.getD S.stop

/-- What is found of the tokens, as it is found in the setting. -/
def retell (S : Setting) (d : Diagnostic) : Diagnostic := (d.relabel S.label).facing S.edge

/-- The reader in the setting. -/
def view (S : Setting) (r : Reader) : Reader where
  last := r.last
  rest := r.rest.map (Token.relabel S.label) ++ S.tail
  stop := S.stop
  nextId := S.label.id r.nextId
  found := S.before ++ r.found.map S.retell

/-- A reader and what it is in the setting.  No token to come is an `eof`, and one is behind
them. -/
structure Shows (S : Setting) (r r' : Reader) : Prop where
  eq : r' = S.view r
  inside : ∀ t ∈ r.rest, t.kind ≠ .eof
  ends : r.stop.kind = .eof

/-- The value in the setting, for a value that has labels. -/
def To {α : Type} (S : Setting) (f : Labelling → α → α) (a a' : α) : Prop := a' = f S.label a

/-- A node that waits for its number, in the setting. -/
def Node (S : Setting) (node node' : ExprId → Expr) : Prop :=
  ∀ id, node' (S.label.id id) = (node id).relabel S.label

/-- The readings end alike. -/
inductive Follows {α α' : Type} {n n' : Nat} (S : Setting) (V : α → α' → Prop) :
    Outcome α n → Outcome α' n' → Prop
  | ok {a : α} {a' : α'} {s s' : Reader} (h : s.rest.length < n) (h' : s'.rest.length < n')
      (value : V a a') (after : S.Shows s s') : S.Follows V (.ok a s h) (.ok a' s' h')
  | fail {s s' : Reader} (h : s.rest.length ≤ n) (h' : s'.rest.length ≤ n')
      (after : S.Shows s s') : S.Follows V (.fail s h) (.fail s' h')

section
variable {α α' β β' : Type} {n n' m m' : Nat} {V : α → α' → Prop} {W : β → β' → Prop}
  {o : Outcome α n} {o' : Outcome α' n'}

theorem Follows.cases (h : S.Follows V o o') :
    (∃ a a' s s' hs hs', o = .ok a s hs ∧ o' = .ok a' s' hs' ∧ V a a' ∧ S.Shows s s') ∨
      ∃ s s' hs hs', o = .fail s hs ∧ o' = .fail s' hs' ∧ S.Shows s s' := by
  cases h with
  | ok hs hs' value after => exact .inl ⟨_, _, _, _, hs, hs', rfl, rfl, value, after⟩
  | fail hs hs' after => exact .inr ⟨_, _, hs, hs', rfl, rfl, after⟩

theorem Follows.of_ok {a : α} {s : Reader} {hs : s.rest.length < n} (h : S.Follows V o o')
    (ho : o = .ok a s hs) : ∃ a' s' hs', o' = .ok a' s' hs' ∧ V a a' ∧ S.Shows s s' := by
  subst ho
  cases h with
  | ok _ hs' value after => exact ⟨_, _, hs', rfl, value, after⟩

theorem Follows.of_fail {s : Reader} {hs : s.rest.length ≤ n} (h : S.Follows V o o')
    (ho : o = .fail s hs) : ∃ s' hs', o' = .fail s' hs' ∧ S.Shows s s' := by
  subst ho
  cases h with
  | fail _ hs' after => exact ⟨_, hs', rfl, after⟩

theorem Follows.mono (h : S.Follows V o o') (hle : n ≤ m) (hle' : n' ≤ m') :
    S.Follows V (o.mono hle) (o'.mono hle') := by
  cases h with
  | ok hs hs' value after => exact .ok _ _ value after
  | fail hs hs' after => exact .fail _ _ after

theorem Follows.past (h : S.Follows V o o') (hlt : n < m) (hlt' : n' < m') :
    S.Follows V (o.past hlt) (o'.past hlt') :=
  h.mono _ _

theorem Follows.map {f : α → β} {f' : α' → β'} (h : S.Follows V o o')
    (hf : ∀ a a', V a a' → W (f a) (f' a')) : S.Follows W (o.map f) (o'.map f') := by
  cases h with
  | ok hs hs' value after => exact .ok hs hs' (hf _ _ value) after
  | fail hs hs' after => exact .fail hs hs' after

theorem Follows.bind {k : α → (s : Reader) → s.rest.length < n → Outcome β s.rest.length}
    {k' : α' → (s : Reader) → s.rest.length < n' → Outcome β' s.rest.length}
    (h : S.Follows V o o')
    (hk : ∀ a a' s s' hs hs', V a a' → S.Shows s s' → S.Follows W (k a s hs) (k' a' s' hs')) :
    S.Follows W (o.bind k) (o'.bind k') := by
  cases h with
  | ok hs hs' value after => exact (hk _ _ _ _ hs hs' value after).past hs hs'
  | fail hs hs' after => exact .fail hs hs' after

end

theorem Follows.number {n n' : Nat} {o : Outcome (ExprId → Expr) n}
    {o' : Outcome (ExprId → Expr) n'} (h : S.Follows S.Node o o') :
    S.Follows (S.To Expr.relabel) o.number o'.number := by
  cases h with
  | @ok node node' s s' hs hs' value after =>
      obtain ⟨rfl, inside, ends⟩ := after
      have hnumbered : S.Shows { s with nextId := s.nextId + 1 }
          { S.view s with nextId := S.label.id s.nextId + 1 } :=
        ⟨by simp only [view, S.label.next], inside, ends⟩
      exact .ok _ _ (value s.nextId) hnumbered
  | fail hs hs' after => exact .fail hs hs' after

theorem shows_ofTokens {ts : List Token} {r' : Reader}
    (h : r' = S.view (Reader.ofTokens ts)) : S.Shows (Reader.ofTokens ts) r' :=
  ⟨h, Reader.ofTokens_inside ts, Reader.ofTokens_stop ts⟩

/-! ### Single moves -/

variable {r r' : Reader} {k : Kind} {loc : Span}

@[simp] theorem retell_eof (what : Expected) :
    S.retell (.syntaxError (.expected what .eof) loc) =
      .syntaxError (.expected what S.edge.kind) S.edge.span := rfl

theorem retell_expected (what : Expected) (hk : k ≠ .eof) :
    S.retell (.syntaxError (.expected what k) loc) =
      .syntaxError (.expected what k) (S.label.span loc) := by
  cases k <;> first | rfl | exact absurd rfl hk

theorem edge_kind (S : Setting) : S.edge.kind = .kwDef ∨ S.edge.kind = .eof := by
  rw [edge]
  rcases htail : S.tail with _ | ⟨t, ts⟩
  · exact .inr S.closes
  · exact .inl (S.opens t (by simp [htail]))

/-- At the end of the tokens stands the edge. -/
theorem Shows.current_edge (h : S.Shows r r') (hr : r.rest = []) :
    r'.current = S.edge ∧ r.current.kind = .eof := by
  rw [h.eq]
  constructor
  · simp [Reader.current, view, edge, hr]
  · rw [Reader.current, hr]
    exact h.ends

theorem Shows.current_inside {t : Token} {ts : List Token} (h : S.Shows r r')
    (hr : r.rest = t :: ts) :
    r'.current = t.relabel S.label ∧ r.current = t ∧ t.kind ≠ .eof := by
  rw [h.eq]
  refine ⟨?_, ?_, h.inside t (by simp [hr])⟩ <;> simp [Reader.current, view, hr]

/-- No look ahead can tell the edge from the end, except for those two kinds. -/
theorem Shows.peek_eq_iff (h : S.Shows r r') (hd : k ≠ .kwDef) (he : k ≠ .eof) :
    r'.peek = k ↔ r.peek = k := by
  rcases hr : r.rest with _ | ⟨t, ts⟩
  · obtain ⟨hc', hc⟩ := h.current_edge hr
    rw [Reader.peek, Reader.peek, hc', hc]
    have := S.edge_kind
    grind
  · obtain ⟨hc', hc, -⟩ := h.current_inside hr
    rw [Reader.peek, Reader.peek, hc', hc]
    rfl

/-- What is seen ahead, unless it is the end, is the same token. -/
theorem Shows.current_of_peek (h : S.Shows r r') (hp : r.peek = k) (he : k ≠ .eof) :
    r'.current = r.current.relabel S.label := by
  rcases hr : r.rest with _ | ⟨t, ts⟩
  · obtain ⟨-, hc⟩ := h.current_edge hr
    exact absurd (hp.symm.trans hc) he
  · obtain ⟨hc', hc, -⟩ := h.current_inside hr
    rw [hc', hc]

theorem Shows.report {e e' : SyntaxError} {loc' : Span} (h : S.Shows r r')
    (he : S.retell (.syntaxError e loc) = .syntaxError e' loc') :
    S.Shows (r.report e loc) (r'.report e' loc') := by
  obtain ⟨rfl, inside, ends⟩ := h
  refine ⟨?_, inside, ends⟩
  simp [Reader.report, view, he]

theorem Shows.advance (h : S.Shows r r') (hr : r.rest ≠ []) :
    S.Shows r.advance r'.advance := by
  obtain ⟨rfl, inside, ends⟩ := h
  obtain ⟨t, ts, hr⟩ := List.exists_cons_of_ne_nil hr
  have hstop : r.advance.stop = r.stop := (Reader.Passes.advance hr).stop
  refine ⟨?_, ?_, hstop ▸ ends⟩
  · simp [Reader.advance, view, hr, Token.relabel]
  · intro u hu
    rw [Reader.advance_rest, hr] at hu
    exact inside u (by rw [hr]; exact List.mem_cons_of_mem t hu)

/-- Where the tokens end, nothing comes next in the setting or a `def`. -/
theorem Shows.rest_edge (h : S.Shows r r') (hr : r.rest = []) :
    r'.rest = [] ∨ ∃ d ds, r'.rest = d :: ds ∧ d.kind = .kwDef := by
  rw [h.eq]
  rcases htail : S.tail with _ | ⟨d, ds⟩
  · exact .inl (by simp [view, hr, htail])
  · exact .inr ⟨d, ds, by simp [view, hr, htail], S.opens d (by simp [htail])⟩

theorem Shows.rest_inside {t : Token} {ts : List Token} (h : S.Shows r r')
    (hr : r.rest = t :: ts) : ∃ ts', r'.rest = t.relabel S.label :: ts' := by
  rw [h.eq]
  exact ⟨_, by simp [view, hr]; rfl⟩

theorem Shows.next? (h : S.Shows r r') :
    (r.rest = [] ∧ r.next? = none ∧
      (r'.next? = none ∨ ∃ d s', r'.next? = some (d, s') ∧ d.kind = .kwDef)) ∨
    ∃ t s s' hlt hlt', r.next? = some (t, ⟨s, hlt⟩) ∧
      r'.next? = some (t.relabel S.label, ⟨s', hlt'⟩) ∧ t.kind ≠ .eof ∧ S.Shows s s' := by
  by_cases hr : r.rest = []
  · refine .inl ⟨hr, Reader.next?_eq_none_iff.mpr hr, ?_⟩
    rcases h.rest_edge hr with hr' | ⟨d, ds, hr', hd⟩
    · exact .inl (Reader.next?_eq_none_iff.mpr hr')
    · obtain ⟨hlt, hn⟩ := Reader.next?_eq hr'
      exact .inr ⟨d, _, hn, hd⟩
  · have hs := h.advance hr
    obtain ⟨t, ts, hr⟩ := List.exists_cons_of_ne_nil hr
    obtain ⟨ts', hr'⟩ := h.rest_inside hr
    obtain ⟨hlt, hn⟩ := Reader.next?_eq hr
    obtain ⟨hlt', hn'⟩ := Reader.next?_eq hr'
    exact .inr ⟨t, _, _, hlt, hlt', hn, hn', h.inside t (by simp [hr]), hs⟩

theorem Shows.next?_of_some {t : Token} {s : Reader} {hlt : s.rest.length < r.rest.length}
    (h : S.Shows r r') (hn : r.next? = some (t, ⟨s, hlt⟩)) :
    ∃ s' hlt', r'.next? = some (t.relabel S.label, ⟨s', hlt'⟩) ∧ t.kind ≠ .eof ∧ S.Shows s s' := by
  rcases h.next? with ⟨-, hn₀, -⟩ | ⟨_, _, s', _, hlt', hn₀, hn', ht, hs⟩
  · cases hn₀.symm.trans hn
  · cases hn₀.symm.trans hn
    exact ⟨s', hlt', hn', ht, hs⟩

theorem follows_failExpected {α α' : Type} {V : α → α' → Prop} (what : Expected)
    (h : S.Shows r r') : S.Follows V (r.failExpected what) (r'.failExpected what) := by
  refine .fail _ _ (h.report ?_)
  rcases hr : r.rest with _ | ⟨t, ts⟩
  · obtain ⟨hc', hc⟩ := h.current_edge hr
    rw [Reader.peek, Reader.peek, hc, hc', retell_eof]
  · obtain ⟨hc', hc, hk⟩ := h.current_inside hr
    rw [Reader.peek, Reader.peek, hc, hc']
    exact retell_expected what hk

theorem follows_expect (h : S.Shows r r') (hd : k ≠ .kwDef) :
    S.Follows (S.To Token.relabel) (r.expect k) (r'.expect k) := by
  rw [Reader.expect, Reader.expect]
  rcases h.next? with ⟨-, hn, hn' | ⟨d, s', hn', hk⟩⟩ | ⟨t, s, s', hlt, hlt', hn, hn', -, hs⟩
  · simp only [hn, hn']
    exact follows_failExpected _ h
  · simp only [hn, hn', hk, if_neg (Ne.symm hd)]
    exact follows_failExpected _ h
  · simp only [hn, hn', Token.relabel]
    split
    · exact .ok hlt hlt' rfl hs
    · exact follows_failExpected _ h

/-- What is built with the token that closes it. -/
theorem follows_last {α : Type} {relabel : Labelling → α → α} {f f' : Token → α}
    (h : S.Shows r r') (hd : k ≠ .kwDef)
    (hf : ∀ t, f' (t.relabel S.label) = relabel S.label (f t)) :
    S.Follows (S.To relabel) ((r.expect k).map f) ((r'.expect k).map f') :=
  (follows_expect h hd).map fun t _ ht => ht ▸ hf t

/-- A token is passed in both readers or in neither. -/
theorem Shows.eat? (h : S.Shows r r') (hd : k ≠ .kwDef) :
    (r.eat? k = none ∧ r'.eat? k = none) ∨
      ∃ s s' hlt hlt', r.eat? k = some ⟨s, hlt⟩ ∧ r'.eat? k = some ⟨s', hlt'⟩ ∧ S.Shows s s' := by
  rw [Reader.eat?, Reader.eat?]
  rcases h.next? with ⟨-, hn, hn' | ⟨d, s', hn', hk⟩⟩ | ⟨t, s, s', hlt, hlt', hn, hn', -, hs⟩
  · simp [hn, hn']
  · simp [hn, hn', hk, Ne.symm hd]
  · simp only [hn, hn', Token.relabel]
    split
    · exact .inr ⟨s, s', hlt, hlt', rfl, rfl, hs⟩
    · exact .inl ⟨rfl, rfl⟩

/-! ### Recovery -/

theorem Shows.toBoundary (h : S.Shows r r') : S.Shows r.toBoundary r'.toBoundary := by
  fun_induction Reader.toBoundary r generalizing r' with
  | case1 r hr =>
      rcases h.rest_edge hr with hr' | ⟨d, ds, hr', hd⟩
      · rwa [Reader.toBoundary_nil hr']
      · rwa [Reader.toBoundary_cons hr', if_pos (.inr (by simp [hd, Reader.boundaries]))]
  | case2 r t ts hr hb =>
      obtain ⟨ts', hr'⟩ := h.rest_inside hr
      rwa [Reader.toBoundary_cons hr', if_pos (by rw [h.eq]; exact hb)]
  | case3 r t ts hr hb ih =>
      obtain ⟨ts', hr'⟩ := h.rest_inside hr
      rw [Reader.toBoundary_cons hr', if_neg (by rw [h.eq]; exact hb)]
      exact ih (h.advance (by simp [hr]))

theorem Shows.toDef (h : S.Shows r r') : S.Shows r.toDef r'.toDef := by
  fun_induction Reader.toDef r generalizing r' with
  | case1 r hr =>
      rcases h.rest_edge hr with hr' | ⟨d, ds, hr', hd⟩
      · rwa [Reader.toDef_nil hr']
      · rwa [Reader.toDef_cons hr', if_pos hd]
  | case2 r t ts hr hd =>
      obtain ⟨ts', hr'⟩ := h.rest_inside hr
      rwa [Reader.toDef_cons hr', Token.kind_relabel, if_pos hd]
  | case3 r t ts hr hd ih =>
      obtain ⟨ts', hr'⟩ := h.rest_inside hr
      rw [Reader.toDef_cons hr', Token.kind_relabel, if_neg hd]
      exact ih (h.advance (by simp [hr]))

end Setting

end ProcScript
