import ProcScript.Proofs.Syntax.Recovery

/-!
# Syntax — one failure at a time

What fails fails once.  Where all literals are in range, a reading that succeeds has found
nothing and one that fails has found one thing, and neither passes a `;` (`Outcome.Once`); a
statement without blocks passes the `;` it ends with, if it succeeds (`Outcome.Finishes`).  There
is one rule for each combinator of readings, and one for each reading: expressions by induction on
the tokens to come, and the others as they are put together (`Reader.finishes_stmt`).
-/

namespace ProcScript

namespace Reader

variable {r s u : Reader} {t : Token} {ds es : List Diagnostic}

/-- Every integer literal to come is in range. -/
def Legible (r : Reader) : Prop := ∀ t ∈ r.rest, t.Readable

/-- From `r` to `s` no `;` is passed, and `ds` is found. -/
structure Short (r s : Reader) (ds : List Diagnostic) : Prop where
  passes : ∃ ts, r.Passes s ts ds ∧ ∀ t ∈ ts, t.kind ≠ .semicolon
  last : s.last = .semicolon → r.last = .semicolon

theorem Short.of_nil (h : r.Passes s [] ds) (hlast : s.last = r.last) : r.Short s ds :=
  ⟨⟨[], h, List.forall_mem_nil _⟩, hlast.symm.trans⟩

theorem Short.refl (r : Reader) : r.Short r [] := .of_nil (.refl r) rfl

theorem Short.trans (h : r.Short s ds) (h' : s.Short u es) : r.Short u (ds ++ es) := by
  obtain ⟨ts, hp, hts⟩ := h.passes
  obtain ⟨us, hp', hus⟩ := h'.passes
  exact ⟨⟨ts ++ us, hp.trans hp', List.forall_mem_append.mpr ⟨hts, hus⟩⟩,
    fun hu => h.last (h'.last hu)⟩

theorem Short.report (r : Reader) (error : SyntaxError) (loc : Span) :
    r.Short (r.report error loc) [.syntaxError error loc] :=
  .of_nil (.report r error loc) rfl

theorem Short.nextId (r : Reader) (id : ExprId) : r.Short { r with nextId := id } [] :=
  .of_nil (.nextId r id) rfl

theorem last_advance {ts : List Token} (h : r.rest = t :: ts) : r.advance.last = t.kind := by
  simp [advance, h]

theorem short_next? {s : { s : Reader // s.rest.length < r.rest.length }}
    (h : r.next? = some (t, s)) (hk : t.kind ≠ .semicolon) : r.Short s.val [] := by
  obtain ⟨hr, hs⟩ := next?_eq_some h
  refine ⟨⟨[t], passes_next? h, by simpa using hk⟩, fun hlast => ?_⟩
  rw [hs, last_advance hr] at hlast
  exact absurd hlast hk

theorem short_eat? {kind : Kind} {s : { s : Reader // s.rest.length < r.rest.length }}
    (h : r.eat? kind = some s) (hk : kind ≠ .semicolon) : r.Short s.val [] := by
  rw [eat?] at h
  split at h
  · rename_i t s' hn
    split at h
    · rename_i hkind
      obtain rfl := Option.some.inj h
      exact short_next? hn (hkind ▸ hk)
    · cases h
  · cases h

theorem Short.legible (h : r.Short s ds) (hr : r.Legible) : s.Legible := by
  obtain ⟨ts, hp, -⟩ := h.passes
  exact fun t ht => hr t (hp.rest ▸ List.mem_append_right ts ht)

/-- From `r` to `s` all is passed up to the next `;` and with it, and nothing is found. -/
def Over (r s : Reader) : Prop :=
  ∃ ts t, r.Passes s (ts ++ [t]) [] ∧ (∀ u ∈ ts, u.kind ≠ .semicolon) ∧ t.kind = .semicolon

theorem Short.over (h : r.Short s []) (h' : s.Over u) : r.Over u := by
  obtain ⟨ts, hp, hts⟩ := h.passes
  obtain ⟨us, t, hp', hus, ht⟩ := h'
  refine ⟨ts ++ us, t, ?_, List.forall_mem_append.mpr ⟨hts, hus⟩, ht⟩
  simpa using hp.trans hp'

end Reader

/-! ### What fails fails once -/

namespace Outcome

variable {α β : Type} {m n : Nat} {r s : Reader}

/-- Where the literals are in range, it succeeds and finds nothing or fails and finds one thing,
and it passes no `;`. -/
def Once (o : Outcome α n) (r : Reader) : Prop :=
  r.Legible → o.Ends (fun _ s => r.Short s []) fun s => ∃ d, r.Short s [d]

/-- The same, but to succeed it passes the next `;`. -/
def Finishes (o : Outcome α n) (r : Reader) : Prop :=
  r.Legible → o.Ends (fun _ s => r.Over s) fun s => ∃ d, r.Short s [d]

theorem Once.mono {o : Outcome α m} (h : o.Once r) (hle : m ≤ n) : (o.mono hle).Once r :=
  fun hr => (h hr).mono hle

theorem Once.past {o : Outcome α m} (h : o.Once r) (hlt : m < n) : (o.past hlt).Once r :=
  fun hr => (h hr).past hlt

theorem Once.map {o : Outcome α n} {f : α → β} (h : o.Once r) : (o.map f).Once r :=
  fun hr => Ends.map (h hr)

theorem Once.behind {o : Outcome α n} (h : o.Once s) (hs : r.Short s []) : o.Once r := fun hr =>
  (h (hs.legible hr)).imp (fun _ _ => hs.trans) fun _ ⟨d, hd⟩ => ⟨d, hs.trans hd⟩

theorem Once.bind {o : Outcome α n}
    {k : α → (s : Reader) → s.rest.length < n → Outcome β s.rest.length} (h : o.Once r)
    (hk : ∀ a s hs, (k a s hs).Once s) : (o.bind k).Once r := fun hr =>
  Ends.bind (h hr) fun a s hs hp => (hk a s hs).behind hp hr

theorem Once.number {o : Outcome (ExprId → Expr) n} (h : o.Once r) : o.number.Once r := fun hr =>
  Ends.number ((h hr).imp (fun _ s hs => hs.trans (.nextId s _)) fun _ => id)

theorem Finishes.past {o : Outcome α m} (h : o.Finishes r) (hlt : m < n) :
    (o.past hlt).Finishes r :=
  fun hr => (h hr).past hlt

theorem Finishes.behind {o : Outcome α n} (h : o.Finishes s) (hs : r.Short s []) :
    o.Finishes r := fun hr =>
  (h (hs.legible hr)).imp (fun _ _ => hs.over) fun _ ⟨d, hd⟩ => ⟨d, hs.trans hd⟩

/-- What comes before a `;`, and then the `;`. -/
theorem Once.finishes {o : Outcome α n}
    {k : α → (s : Reader) → s.rest.length < n → Outcome β s.rest.length} (h : o.Once r)
    (hk : ∀ a s hs, (k a s hs).Finishes s) : (o.bind k).Finishes r := fun hr =>
  Ends.bind (h hr) fun a s hs hp => (hk a s hs).behind hp hr

end Outcome

namespace Reader

variable {r s : Reader} {t : Token}

theorem once_failExpected {α : Type} (what : Expected) (r : Reader) :
    (r.failExpected (α := α) what).Once r :=
  fun _ => ⟨_, .report r _ _⟩

theorem once_expect {kind : Kind} (r : Reader) (hk : kind ≠ .semicolon) :
    (r.expect kind).Once r := by
  rw [expect]
  split
  · rename_i t s h hn
    split
    · rename_i hkind
      exact fun _ => short_next? hn (hkind ▸ hk)
    · exact once_failExpected _ r
  · exact once_failExpected _ r

theorem once_literal {n : Nat} {hlt : s.rest.length < n} (hs : r.Short s []) (ht : t ∈ r.rest)
    (hk : t.kind = .intLiteral) : (literal t s hlt).Once r := by
  intro hr
  obtain ⟨value, hv⟩ := Option.isSome_iff_exists.mp (hr t ht hk)
  rw [literal]
  split
  · exact hs
  · rename_i hnone
    cases hnone.symm.trans hv

theorem once_variableName {n : Nat} {hlt : s.rest.length < n} (hs : r.Short s []) :
    (variableName t s hlt).Once r := by
  intro _
  rw [variableName]
  split
  · exact ⟨_, hs.trans (.report s _ _)⟩
  · exact hs

/-- The operators behind an expression, if the expressions of shorter readers are known. -/
theorem once_operators (min : Nat) {left : Expr} {s : Reader}
    (hs : ∀ u : Reader, u.rest.length < s.rest.length → ∀ level, (u.expr level).Once u) :
    (s.operators min left).Once s := by
  rw [operators]
  split
  · exact fun _ => .refl s
  · rename_i t s' hlt hn
    split
    · exact fun _ => .refl s
    · rename_i level op hop
      have hk : t.kind ≠ .semicolon := by
        intro hk
        rw [hk] at hop
        cases hop
      split
      · exact fun _ => .refl s
      · have hr := (((hs s' hlt (level + 1)).map (f := fun right id =>
          Expr.binary op left right id (left.span.merge right.span))).number).behind
            (short_next? hn hk)
        split
        · rename_i e s'' h heq
          rw [heq] at hr
          intro hl
          have hlt' : s''.rest.length < s.rest.length := Nat.lt_trans h hlt
          exact ((once_operators min fun u hu => hs u (Nat.lt_trans hu hlt')).behind
            (hr hl)).mono _ hl
        · rename_i s'' h heq
          rw [heq] at hr
          exact hr
termination_by s.rest.length

/-- An operand, if the expressions of shorter readers are known. -/
theorem once_operand (hr : ∀ u : Reader, u.rest.length < r.rest.length →
    ∀ level, (u.expr level).Once u) : r.operand.Once r := by
  rw [operand]
  split
  · exact once_failExpected _ r
  · rename_i t s hlt hn
    have hmem : t ∈ r.rest := (next?_eq_some hn).1 ▸ List.mem_cons_self
    have hshort : ∀ {kind : Kind}, t.kind = kind → kind ≠ .semicolon → r.Short s [] :=
      fun hk hne => short_next? hn (hk ▸ hne)
    split
    · exact ((once_literal (hshort ‹_› (by decide)) hmem ‹_›).map).number
    · exact Outcome.Once.number fun _ => hshort ‹_› (by decide)
    · exact Outcome.Once.number fun _ => hshort ‹_› (by decide)
    · exact ((once_variableName (hshort ‹_› (by decide))).map).number
    · exact ((((hr s hlt tightest).map).number).behind (hshort ‹_› (by decide))).past hlt
    · exact ((((hr s hlt tightest).map).number).behind (hshort ‹_› (by decide))).past hlt
    · exact (((((hr s hlt 1).bind fun e u _ => (once_expect u (by decide)).map)).number).behind
        (hshort ‹_› (by decide))).past hlt
    · exact once_failExpected _ r

theorem once_expr (min : Nat) (r : Reader) : (r.expr min).Once r := by
  have hr : ∀ u : Reader, u.rest.length < r.rest.length → ∀ level, (u.expr level).Once u :=
    fun u _ level => once_expr level u
  have ho := once_operand hr
  rw [expr]
  split
  · rename_i left s h heq
    rw [heq] at ho
    intro hl
    exact ((once_operators min fun u hu => hr u (Nat.lt_trans hu h)).behind (ho hl)).mono h hl
  · rename_i s h heq
    rw [heq] at ho
    exact ho
termination_by r.rest.length

theorem once_expressions (r : Reader) : r.expressions.Once r := by
  rw [expressions]
  refine (once_expr 1 r).bind fun e s _ => ?_
  split
  · rename_i u hlt heq
    exact (((once_expressions u).map).behind (short_eat? heq (by decide))).past hlt
  · exact (once_expect s (by decide)).map
termination_by r.rest.length

theorem once_arguments (r : Reader) : r.arguments.Once r := by
  rw [arguments]
  split
  · exact (once_expect r (by decide)).map
  · exact once_expressions r

theorem finishes_semicolon {α : Type} (f : Token → α) (r : Reader) :
    ((r.expect .semicolon).map f).Finishes r := by
  intro _
  refine Outcome.Ends.map ?_
  rcases expect_cases .semicolon r with ⟨t, s, h, hk, hp, heq⟩ | heq
  · rw [heq]
    exact ⟨[], t, hp, List.forall_mem_nil _, hk⟩
  · rw [heq]
    exact ⟨_, .report r _ _⟩

theorem finishes_varDef (start : Span) (r : Reader) : (r.varDef start).Finishes r := by
  rw [varDef]
  refine (once_expect r (by decide)).finishes fun _ s _ => ?_
  refine (once_expect s (by decide)).finishes fun _ s _ => ?_
  refine ((once_expect s (by decide)).map).finishes fun _ s _ => ?_
  split
  · rename_i u hlt heq
    refine (((once_expr 1 u).finishes fun e s _ => ?_).behind (short_eat? heq (by decide))).past hlt
    exact finishes_semicolon _ s
  · exact finishes_semicolon _ s

theorem finishes_returnStmt (start : Span) (r : Reader) : (r.returnStmt start).Finishes r := by
  rw [returnStmt]
  split
  · exact finishes_semicolon _ r
  · exact (once_expr 1 r).finishes fun e s _ => finishes_semicolon _ s

theorem finishes_callOrAssign (name : Token) (r : Reader) :
    (r.callOrAssign name).Finishes r := by
  rw [callOrAssign]
  split
  · refine (once_expect r (by decide)).finishes fun _ s _ => ?_
    refine (once_arguments s).finishes fun _ s _ => ?_
    exact finishes_semicolon _ s
  · refine (once_expect r (by decide)).finishes fun _ s _ => ?_
    exact (once_expr 1 s).finishes fun e s _ => finishes_semicolon _ s
  · exact fun _ => ⟨_, .report r _ _⟩

/-- A statement without blocks. -/
theorem finishes_stmt {t : Token} (h : t.kind ≠ .kwIf) (h' : t.kind ≠ .kwWhile) (r : Reader) :
    (r.stmt t).Finishes r := by
  rw [stmt]
  split
  · exact finishes_varDef t.span r
  · exact finishes_returnStmt t.span r
  · exact absurd ‹_› h
  · exact absurd ‹_› h'
  · exact finishes_callOrAssign t r
  · exact fun _ => ⟨_, .report r _ _⟩

end Reader

end ProcScript
