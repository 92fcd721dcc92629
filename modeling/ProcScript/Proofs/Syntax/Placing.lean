import ProcScript.Proofs.Syntax.Phrases
import ProcScript.Proofs.Syntax.Recovery

/-!
# Syntax — where the phrases of a script stand

`r.Lays s ps` says that what a reader passes from `r` to `s` are the pieces `ps`.  A phrase is laid
where its pieces are and its span joins that of the first of them and that of the last
(`Spans.join`), so each function of the reader is followed piece by piece.

A statement may fail behind any of its tokens, and what it passed is skipped in the block around
it.  That none of it could have ended the block is read off how it failed: either nothing that
ends a block was passed (`Quiet`), or a block in it was not closed, and then the next token is a
`def` or there is none (`AtEdge`) and no block around it is closed either.

**The tokens of a script are its procedures and what was skipped** between them and in their blocks
(`Script.reads_ofTokens`).
-/

namespace ProcScript

namespace Reader

/-- The kinds that end a block. -/
def enders : List Kind := [.kwElse, .kwEnd, .kwDef]

/-- From `r` to `s` the pieces are passed. -/
def Lays (r s : Reader) (ps : List Piece) : Prop :=
  ∃ us ds, r.Passes s us ds ∧ Piece.Reads ps us

/-- From `r` to `s` the pieces are passed, and the span is that of their tokens. -/
def Spans (r s : Reader) (ps : List Piece) (a : Span) : Prop :=
  ∃ us ds, r.Passes s us ds ∧ us ≠ [] ∧ Piece.Reads ps us ∧
    (Token.Increasing us → a = Span.across us)

/-- From `r` to `s` nothing is passed that ends a block. -/
def Quiet (r s : Reader) : Prop := ∃ us ds, r.Passes s us ds ∧ ∀ t ∈ us, t.kind ∉ enders

/-- From `r` to `s` the pieces are passed and nothing that ends a block. -/
structure Plain (r s : Reader) (ps : List Piece) : Prop where
  lays : r.Lays s ps
  quiet : r.Quiet s

/-- The next token is a `def`, or there is none. -/
def AtEdge (r : Reader) : Prop := ∀ t ∈ r.rest.head?, t.kind = .kwDef

/-- The next token is of one of the kinds. -/
def Meets (r : Reader) (kinds : List Kind) : Prop := ∃ t us, r.rest = t :: us ∧ t.kind ∈ kinds

variable {r₀ r s u v : Reader} {t : Token} {us : List Token} {ps qs rs : List Piece}
variable {ds : List Diagnostic} {a b : Span} {x : Phrase} {kind : Kind} {stops closers : List Kind}

/-! ### Pieces in a row -/

theorem Lays.refl (r : Reader) : r.Lays r [] := ⟨[], [], .refl r, .nil⟩

theorem Lays.trans (h : r.Lays s ps) (h' : s.Lays u qs) : r.Lays u (ps ++ qs) := by
  obtain ⟨us, ds, hp, hr⟩ := h
  obtain ⟨vs, es, hp', hr'⟩ := h'
  exact ⟨us ++ vs, ds ++ es, hp.trans hp', hr.append hr'⟩

theorem Spans.lays (h : r.Spans s ps a) : r.Lays s ps := by
  obtain ⟨us, ds, hp, -, hr, -⟩ := h
  exact ⟨us, ds, hp, hr⟩

/-- A phrase that is laid stands where its span says. -/
theorem Lays.spans (h : r.Lays s [.phrase x]) : r.Spans s [.phrase x] x.span := by
  obtain ⟨us, ds, hp, hr⟩ := h
  obtain ⟨hx, hspan⟩ := hr.of_singleton
  exact ⟨us, ds, hp, hx.phrase_ne_nil, hr, hspan⟩

/-- What joins the span of a first part and that of a last part is the span of the whole. -/
theorem Spans.join (h : r.Spans s ps a) (hs : s.Lays u qs) (h' : u.Spans v rs b) :
    r.Spans v (ps ++ qs ++ rs) (a.merge b) := by
  obtain ⟨us, ds, hp, hus, hr, ha⟩ := h
  obtain ⟨ws, es, hq, hw⟩ := hs
  obtain ⟨vs, fs, hp', hvs, hr', hb⟩ := h'
  refine ⟨us ++ ws ++ vs, ds ++ es ++ fs, (hp.trans hq).trans hp',
    List.append_ne_nil_of_right_ne_nil _ hvs, (hr.append hw).append hr', fun hi => ?_⟩
  have hleft := (List.pairwise_append.mp (List.pairwise_append.mp hi).1).1
  rw [ha hleft, hb (List.pairwise_append.mp hi).2.1]
  exact Span.merge_across hi hus hvs

/-- A phrase is laid where its pieces are and its span is theirs. -/
theorem Spans.phrase (h : r.Spans s ps a) (hps : x.pieces = ps) (ha : x.span = a) :
    r.Lays s [.phrase x] := by
  subst hps ha
  obtain ⟨us, ds, hp, -, hr, hspan⟩ := h
  have hx := Piece.Reads.phrase hr hspan .nil
  rw [List.append_nil] at hx
  exact ⟨us, ds, hp, hx⟩

/-- What is passed where tokens may be skipped. -/
theorem Lays.skip (hp : r.Passes s us ds) (h : ∀ t ∈ us, t.kind ∉ stops)
    (h' : s.Lays u (.skipped stops :: ps)) : r.Lays u (.skipped stops :: ps) := by
  obtain ⟨vs, es, hp', hr⟩ := h'
  refine ⟨us ++ vs, ds ++ es, hp.trans hp', ?_⟩
  cases hr with
  | @skipped _ _ ws _ stray more =>
      rw [← List.append_assoc]
      refine .skipped (fun t ht => ?_) more
      exact (List.mem_append.mp ht).elim (h t) (stray t)

theorem Lays.skipped (h : r.Lays s ps) : r.Lays s (.skipped stops :: ps) := by
  obtain ⟨us, ds, hp, hr⟩ := h
  exact ⟨us, ds, hp, .skipped (List.forall_mem_nil _) hr⟩

/-! ### Single tokens -/

theorem Passes.spans_word (h : r.Passes s [t] ds) : r.Spans s [.word t.word] t.span :=
  ⟨[t], ds, h, List.cons_ne_nil t [], .word .nil, fun _ => rfl⟩

theorem Passes.spans_kind (h : r.Passes s [t] ds) (hk : t.kind = kind) (hf : kind.IsFixed) :
    r.Spans s [.word (.kind kind)] t.span := by
  rw [← Token.word_of_kind hk hf]
  exact h.spans_word

theorem Passes.spans_name (h : r.Passes s [t] ds) (hk : t.kind = .identifier) :
    r.Spans s [.word (.name t.lexeme)] t.span := by
  rw [← Token.word_of_identifier hk]
  exact h.spans_word

/-! ### What ends no block -/

theorem Passes.quiet_nil (h : r.Passes s [] ds) : r.Quiet s :=
  ⟨[], ds, h, List.forall_mem_nil _⟩

theorem Passes.quiet (h : r.Passes s [t] ds) (hk : t.kind = kind) (he : kind ∉ enders) :
    r.Quiet s :=
  ⟨[t], ds, h, List.forall_mem_singleton.mpr (hk ▸ he)⟩

theorem Quiet.trans (h : r.Quiet s) (h' : s.Quiet u) : r.Quiet u := by
  obtain ⟨us, ds, hp, hq⟩ := h
  obtain ⟨vs, es, hp', hq'⟩ := h'
  exact ⟨us ++ vs, ds ++ es, hp.trans hp', List.forall_mem_append.mpr ⟨hq, hq'⟩⟩

theorem Quiet.report (h : r.Quiet s) (error : SyntaxError) (loc : Span) :
    r.Quiet (s.report error loc) :=
  h.trans (Passes.report s error loc).quiet_nil

theorem Plain.trans (h : r.Plain s ps) (h' : s.Plain u qs) : r.Plain u (ps ++ qs) :=
  ⟨h.lays.trans h'.lays, h.quiet.trans h'.quiet⟩

theorem quiet_toBoundary (r : Reader) : r.Quiet r.toBoundary := by
  fun_induction toBoundary r with
  | case1 r h | case2 r t ts h hb => exact (Passes.refl r).quiet_nil
  | case3 r t ts h hb ih =>
      have hkind : t.kind ∉ enders := fun he => hb (.inr (by
        rw [enders] at he
        rw [boundaries]
        revert he
        generalize t.kind = k
        revert k
        decide))
      exact ((Passes.advance h).quiet rfl hkind).trans ih

end Reader

/-! ### Plain readings -/

namespace Outcome

variable {α β : Type} {m n : Nat} {r s : Reader} {f : α → List Piece} {g : β → List Piece}
variable {ps : List Piece}

/-- A reading of these pieces from `r` that passes nothing which ends a block, even if it fails. -/
def Plain (o : Outcome α n) (r : Reader) (pieces : α → List Piece) : Prop :=
  o.Ends (fun a s => r.Plain s (pieces a)) r.Quiet

theorem Plain.mono {o : Outcome α m} (h : o.Plain r f) (hle : m ≤ n) : (o.mono hle).Plain r f :=
  Ends.mono h hle

theorem Plain.past {o : Outcome α m} (h : o.Plain r f) (hlt : m < n) : (o.past hlt).Plain r f :=
  Ends.past h hlt

theorem Plain.map {o : Outcome α n} {k : α → β} (h : o.Plain r f) (hk : ∀ a, g (k a) = f a) :
    (o.map k).Plain r g := by
  refine Ends.map (Ends.imp h (fun a s hs => ?_) fun _ => id)
  rw [hk a]
  exact hs

/-- What is read where plain pieces end is read from where they began. -/
theorem Plain.behind {o : Outcome α n} (h : o.Plain s f) (hs : r.Plain s ps) :
    o.Plain r fun a => ps ++ f a :=
  Ends.imp h (fun _ _ => hs.trans) fun _ => hs.quiet.trans

/-- A node is where it is, whatever its number. -/
theorem Plain.number {o : Outcome (ExprId → Expr) n}
    (h : ∀ id, o.Plain r fun node => [.phrase (.expr (node id))]) :
    o.number.Plain r fun e => [.phrase (.expr e)] := by
  cases o with
  | ok node s hs =>
      have hid := Reader.Passes.nextId s (s.nextId + 1)
      have hp := Reader.Plain.trans (h s.nextId) ⟨⟨[], [], hid, .nil⟩, hid.quiet_nil⟩
      rw [List.append_nil] at hp
      exact hp
  | fail s hs => exact h 0

end Outcome

namespace Reader

variable {r₀ r s u v : Reader} {t : Token} {us : List Token} {ps qs rs : List Piece}
variable {ds : List Diagnostic} {a b : Span} {x : Phrase} {kind : Kind} {stops closers : List Kind}

theorem Passes.plain_kind (h : r.Passes s [t] ds) (hk : t.kind = kind) (hf : kind.IsFixed)
    (he : kind ∉ enders) : r.Plain s [.word (.kind kind)] :=
  ⟨(h.spans_kind hk hf).lays, h.quiet hk he⟩

theorem Passes.plain_name (h : r.Passes s [t] ds) (hk : t.kind = .identifier) :
    r.Plain s [.word (.name t.lexeme)] :=
  ⟨(h.spans_name hk).lays, h.quiet hk (by decide)⟩

/-- A phrase of one token. -/
theorem Passes.plain_phrase (h : r.Passes s [t] ds) (hx : x.pieces = [.word t.word])
    (hspan : x.span = t.span) (he : t.kind ∉ enders) : r.Plain s [.phrase x] :=
  ⟨h.spans_word.phrase hx hspan, h.quiet rfl he⟩

/-- A phrase that starts with what is passed from `r` to `s` and ends with what is passed from `u`
to `v`. -/
theorem Plain.phrase (h : r.Plain s ps) (ha : r.Spans s ps a) (hs : s.Plain u qs)
    (h' : u.Plain v rs) (hb : u.Spans v rs b) (hx : x.pieces = ps ++ qs ++ rs)
    (hspan : x.span = a.merge b) : r.Plain v [.phrase x] :=
  ⟨(ha.join hs.lays hb).phrase hx hspan, (h.quiet.trans hs.quiet).trans h'.quiet⟩

theorem Plain.nil (r : Reader) : r.Plain r [] := ⟨.refl r, (Passes.refl r).quiet_nil⟩

theorem quiet_failExpected {α : Type} (what : Expected) (r : Reader) (f : α → List Piece) :
    (r.failExpected what).Plain r f :=
  (Passes.report r _ _).quiet_nil

theorem plain_expect (kind : Kind) (hf : kind.IsFixed) (he : kind ∉ enders) (r : Reader) :
    (r.expect kind).Plain r fun _ => [.word (.kind kind)] := by
  rcases expect_cases kind r with ⟨t, s, h, hk, hp, heq⟩ | heq
  · rw [heq]
    exact hp.plain_kind hk hf he
  · rw [heq]
    exact quiet_failExpected _ r _

theorem plain_eat? {s : { s : Reader // s.rest.length < r.rest.length }}
    (h : r.eat? kind = some s) (hf : kind.IsFixed) (he : kind ∉ enders) :
    r.Plain s.val [.word (.kind kind)] := by
  obtain ⟨t, hk, hp⟩ := passes_eat? h
  exact hp.plain_kind hk hf he

theorem plain_name (r : Reader) :
    (r.expect .identifier).Plain r fun t => [.word (.name t.lexeme)] := by
  rcases expect_cases .identifier r with ⟨t, s, h, hk, hp, heq⟩ | heq
  · rw [heq]
    exact hp.plain_name hk
  · rw [heq]
    exact quiet_failExpected _ r _

theorem plain_typeName (r : Reader) :
    r.typeName.Plain r fun a => [.phrase (.typeName a)] := by
  rw [typeName]
  rcases expect_cases .identifier r with ⟨t, s, h, hk, hp, heq⟩ | heq
  · rw [heq]
    exact hp.plain_phrase (by rw [Token.word_of_identifier hk]; rfl) rfl (by rw [hk]; decide)
  · rw [heq]
    exact quiet_failExpected _ r fun a => [.phrase (.typeName a)]

/-! ### Expressions -/

/-- The value of a literal is its word. -/
theorem plain_literal {n : Nat} {hlt : s.rest.length < n} (hp : r.Passes s [t] [])
    (hk : t.kind = .intLiteral) (id : ExprId) :
    ((literal t s hlt).map fun value id => Expr.int value id t.span).Plain r
      fun node => [.phrase (.expr (node id))] := by
  have hword {value : Int32} (hv : (Text.int32? t.lexeme).getD 0 = value) :
      Phrase.pieces (.expr (.int value id t.span)) = [.word t.word] := by
    rw [Token.word_of_intLiteral hk, hv]
    rfl
  have he : t.kind ∉ enders := by rw [hk]; decide
  rw [literal]
  split
  · rename_i value hv
    exact hp.plain_phrase (hword (by rw [hv]; rfl)) rfl he
  · rename_i hv
    exact (hp.trans (.report s _ _)).plain_phrase (hword (by rw [hv]; rfl)) rfl he

theorem plain_variableName {n : Nat} {hlt : s.rest.length < n} (hp : r.Passes s [t] [])
    (hk : t.kind = .identifier) (id : ExprId) :
    ((variableName t s hlt).map fun name id => Expr.var name id t.span).Plain r
      fun node => [.phrase (.expr (node id))] := by
  have he : t.kind ∉ enders := by rw [hk]; decide
  rw [variableName]
  split
  · exact (hp.quiet rfl he).report _ _
  · exact hp.plain_phrase (by rw [Token.word_of_identifier hk]; rfl) rfl he

/-- The operators behind an expression, if the expressions of shorter readers are known. -/
theorem plain_operators (min : Nat) {left : Expr} {s : Reader}
    (hs : ∀ u : Reader, u.rest.length < s.rest.length →
      ∀ level, (u.expr level).Plain u fun e => [.phrase (.expr e)])
    (h : r.Plain s [.phrase (.expr left)]) :
    (s.operators min left).Plain r fun e => [.phrase (.expr e)] := by
  rw [operators]
  split
  · exact h
  · rename_i t s' hlt hn
    split
    · exact h
    · rename_i level op hop
      obtain ⟨hk, rfl⟩ := Kind.binaryOp?_eq_some_iff.mp hop
      split
      · exact h
      · have hop := (passes_next? hn).plain_kind hk op.isFixed_kind (by cases op <;> decide)
        have hr : (((s'.expr (op.level + 1)).map fun right id =>
            Expr.binary op left right id (left.span.merge right.span)).number).Plain r
              fun e => [.phrase (.expr e)] := by
          refine Outcome.Plain.number fun id => Outcome.Ends.map ?_
          refine Outcome.Ends.imp (hs s' hlt (op.level + 1)) (fun right u hu => ?_) fun u hu => ?_
          · exact h.phrase h.lays.spans hop hu hu.lays.spans rfl rfl
          · exact (h.quiet.trans hop.quiet).trans hu
        split
        · rename_i e s'' h heq
          rw [heq] at hr
          have hlt' : s''.rest.length < s.rest.length := Nat.lt_trans h hlt
          exact (plain_operators min (fun u hu => hs u (Nat.lt_trans hu hlt')) hr).mono _
        · rename_i s'' h heq
          rw [heq] at hr
          exact hr
termination_by s.rest.length

/-- An operand behind `-` or `not`. -/
theorem plain_unary {op : UnaryOp} {n : Nat} {o : Outcome Expr n} (hp : r.Passes s [t] [])
    (hk : t.kind = op.kind) (ho : o.Plain s fun e => [.phrase (.expr e)]) :
    ((o.map fun e id => Expr.unary op e id (t.span.merge e.span)).number).Plain r
      fun e => [.phrase (.expr e)] := by
  have hop := hp.plain_kind hk op.isFixed_kind (by cases op <;> decide)
  refine Outcome.Plain.number fun id => Outcome.Ends.map ?_
  refine Outcome.Ends.imp ho (fun e u hu => ?_) fun u => hop.quiet.trans
  exact hop.phrase (hp.spans_kind hk op.isFixed_kind) (.nil s) hu hu.lays.spans rfl rfl

/-- An operand, if the expressions of shorter readers are known. -/
theorem plain_operand (hr : ∀ u : Reader, u.rest.length < r.rest.length →
    ∀ level, (u.expr level).Plain u fun e => [.phrase (.expr e)]) :
    r.operand.Plain r fun e => [.phrase (.expr e)] := by
  rw [operand]
  split
  · exact quiet_failExpected _ r _
  · rename_i t s hlt hn
    have hp := passes_next? hn
    split
    · exact .number fun id => plain_literal hp ‹_› id
    · rename_i hk
      refine .number fun id => hp.plain_phrase ?_ rfl (by rw [hk]; decide)
      rw [Token.word_of_kind hk (by decide)]
      rfl
    · rename_i hk
      refine .number fun id => hp.plain_phrase ?_ rfl (by rw [hk]; decide)
      rw [Token.word_of_kind hk (by decide)]
      rfl
    · exact .number fun id => plain_variableName hp ‹_› id
    · exact (plain_unary hp (show _ = UnaryOp.neg.kind from ‹_›) (hr s hlt tightest)).past hlt
    · exact (plain_unary hp (show _ = UnaryOp.not.kind from ‹_›) (hr s hlt tightest)).past hlt
    · rename_i hk
      have ht := hp.plain_kind hk (by decide) (by decide)
      have he : (s.expr 1).Ends (fun e u => s.Plain u [.phrase (.expr e)]) r.Quiet :=
        Outcome.Ends.weaken (hr s hlt 1) fun _ => ht.quiet.trans
      refine (Outcome.Plain.number fun id => Outcome.Ends.bind he fun e u _ hu => ?_).past hlt
      rcases expect_cases .rightParen u with ⟨t', v, h, hk', hp', heq⟩ | heq
      · rw [heq]
        exact ht.phrase (hp.spans_kind hk (by decide)) hu
          (hp'.plain_kind hk' (by decide) (by decide)) (hp'.spans_kind hk' (by decide)) rfl rfl
      · rw [heq]
        exact (ht.quiet.trans hu.quiet).report _ _
    · exact quiet_failExpected _ r _

theorem plain_expr (min : Nat) (r : Reader) :
    (r.expr min).Plain r fun e => [.phrase (.expr e)] := by
  have hr : ∀ u : Reader, u.rest.length < r.rest.length →
      ∀ level, (u.expr level).Plain u fun e => [.phrase (.expr e)] :=
    fun u _ level => plain_expr level u
  have ho := plain_operand hr
  rw [expr]
  split
  · rename_i left s h heq
    rw [heq] at ho
    exact (plain_operators min (fun u hu => hr u (Nat.lt_trans hu h)) ho).mono h
  · rename_i s h heq
    rw [heq] at ho
    exact ho
termination_by r.rest.length

/-! ### Lists -/

section
variable {α : Type} {f : α → Phrase} {c : α}

/-- A list up to its `)`, of one at least. -/
def PlainList {n : Nat} (o : Outcome (List α) n) (r : Reader) (f : α → Phrase) : Prop :=
  o.Ends (fun as s => as ≠ [] ∧
    r.Plain s (Piece.separated (as.map f) ++ [.word (.kind .rightParen)])) r.Quiet

theorem plainList_last (hc : r.Plain s [.phrase (f c)]) :
    PlainList ((s.expect .rightParen).map fun _ => [c]) r f := by
  have h := (plain_expect .rightParen (by decide) (by decide) s).behind hc
  refine Outcome.Ends.map (Outcome.Ends.imp h (fun t u hu => ?_) fun _ => id)
  exact ⟨List.cons_ne_nil c [], hu⟩

theorem plainList_cons {m n : Nat} {u : Reader} {o : Outcome (List α) m} (hlt : m < n)
    (hc : r.Plain s [.phrase (f c)]) (hcomma : s.Plain u [.word (.kind .comma)])
    (ho : PlainList o u f) : PlainList ((o.map (c :: ·)).past hlt) r f := by
  have hu := hc.trans hcomma
  refine (Outcome.Ends.map (Outcome.Ends.imp ho ?_ fun _ => hu.quiet.trans)).past hlt
  rintro as v ⟨has, hv⟩
  obtain ⟨a, as, rfl⟩ := List.exists_cons_of_ne_nil has
  exact ⟨List.cons_ne_nil c _, hu.trans hv⟩

end

theorem plainList_expressions (r : Reader) : PlainList r.expressions r .expr := by
  rw [expressions]
  refine Outcome.Ends.bind (plain_expr 1 r) fun e s _ hs => ?_
  split
  · rename_i u hlt heq
    exact plainList_cons hlt hs (plain_eat? heq (by decide) (by decide)) (plainList_expressions u)
  · exact plainList_last hs
termination_by r.rest.length

theorem plain_arguments (r : Reader) : r.arguments.Plain r fun es =>
    Piece.separated (es.map .expr) ++ [.word (.kind .rightParen)] := by
  rw [arguments]
  split
  · exact (plain_expect .rightParen (by decide) (by decide) r).map fun _ => rfl
  · exact Outcome.Ends.imp (plainList_expressions r) (fun _ _ h => h.2) fun _ => id

theorem plain_param (r : Reader) : r.param.Plain r fun q => [.phrase (.param q)] := by
  rw [param]
  rcases expect_cases .identifier r with ⟨t, s, h, hk, hp, heq⟩ | heq
  · rw [heq]
    have ht := hp.plain_name hk
    have hcolon : (s.expect .colon).Ends (fun _ u => s.Plain u [.word (.kind .colon)]) r.Quiet :=
      Outcome.Ends.weaken (plain_expect .colon (by decide) (by decide) s) fun _ => ht.quiet.trans
    refine Outcome.Ends.past (Outcome.Ends.bind hcolon fun _ u _ hu => Outcome.Ends.map ?_) h
    refine Outcome.Ends.imp (plain_typeName u) (fun a v hv => ?_) fun _ hv => ?_
    · exact ht.phrase (hp.spans_name hk) hu hv hv.lays.spans rfl rfl
    · exact (ht.quiet.trans hu.quiet).trans hv
  · rw [heq]
    exact quiet_failExpected (α := Param) _ r _

theorem plainList_paramList (r : Reader) : PlainList r.paramList r .param := by
  rw [paramList]
  refine Outcome.Ends.bind (plain_param r) fun p s _ hs => ?_
  split
  · rename_i u hlt heq
    exact plainList_cons hlt hs (plain_eat? heq (by decide) (by decide)) (plainList_paramList u)
  · exact plainList_last hs
termination_by r.rest.length

theorem plain_params (r : Reader) : r.params.Plain r fun qs =>
    Piece.separated (qs.map .param) ++ [.word (.kind .rightParen)] := by
  rw [params]
  split
  · exact (plain_expect .rightParen (by decide) (by decide) r).map fun _ => rfl
  · exact Outcome.Ends.imp (plainList_paramList r) (fun _ _ h => h.2) fun _ => id

/-! ### Statements without blocks -/

/-- A statement from its first token to its `;`. -/
theorem ends_semicolon {f : Token → Stmt} (ha : r₀.Spans r ps a) (hs : r.Plain s qs)
    (hpieces : ∀ t, Phrase.pieces (.stmt (f t)) = ps ++ qs ++ [.word (.kind .semicolon)])
    (hspan : ∀ t, (f t).span = a.merge t.span) :
    ((s.expect .semicolon).map f).Ends (fun st u => r₀.Lays u [.phrase (.stmt st)]) r.Quiet := by
  rcases expect_cases .semicolon s with ⟨t, u, h, hk, hp, heq⟩ | heq
  · rw [heq]
    exact (ha.join hs.lays (hp.spans_kind hk (by decide))).phrase (hpieces t) (hspan t)
  · rw [heq]
    exact hs.quiet.report _ _

theorem lays_varDef (ha : r₀.Spans r [.word (.kind .kwVar)] a) :
    (r.varDef a).Ends (fun st u => r₀.Lays u [.phrase (.stmt st)]) r.Quiet := by
  rw [varDef]
  refine Outcome.Ends.bind (plain_name r) fun name s _ hs => ?_
  refine Outcome.Ends.bind ((plain_expect .colon (by decide) (by decide) s).behind hs)
    fun _ s _ hs => ?_
  refine Outcome.Ends.bind ((plain_typeName s).behind hs) fun type s _ hs => ?_
  split
  · rename_i u hlt heq
    have hu := hs.trans (plain_eat? heq (by decide) (by decide))
    refine (Outcome.Ends.bind ((plain_expr 1 u).behind hu) fun e s _ hs => ?_).past hlt
    exact ends_semicolon ha hs (fun _ => rfl) fun _ => rfl
  · exact ends_semicolon ha hs (fun _ => rfl) fun _ => rfl

theorem lays_returnStmt (ha : r₀.Spans r [.word (.kind .kwReturn)] a) :
    (r.returnStmt a).Ends (fun st u => r₀.Lays u [.phrase (.stmt st)]) r.Quiet := by
  rw [returnStmt]
  split
  · exact ends_semicolon ha (.nil r) (fun _ => rfl) fun _ => rfl
  · refine Outcome.Ends.bind (plain_expr 1 r) fun e s _ hs => ?_
    exact ends_semicolon ha hs (fun _ => rfl) fun _ => rfl

theorem lays_callOrAssign {name : Token} (ha : r₀.Spans r [.word (.name name.lexeme)] name.span) :
    (r.callOrAssign name).Ends (fun st u => r₀.Lays u [.phrase (.stmt st)]) r.Quiet := by
  rw [callOrAssign]
  split
  · rw [call]
    refine Outcome.Ends.bind (plain_expect .leftParen (by decide) (by decide) r)
      fun _ s _ hs => ?_
    refine Outcome.Ends.bind ((plain_arguments s).behind hs) fun args s _ hs => ?_
    exact ends_semicolon ha hs (fun _ => by simp [Phrase.pieces]) fun _ => rfl
  · rw [assign]
    refine Outcome.Ends.bind (plain_expect .colonEqual (by decide) (by decide) r)
      fun _ s _ hs => ?_
    refine Outcome.Ends.bind ((plain_expr 1 s).behind hs) fun e s _ hs => ?_
    exact ends_semicolon ha hs (fun _ => rfl) fun _ => rfl
  · exact (Passes.report r _ _).quiet_nil

/-! ### Blocks -/

theorem AtEdge.expect (h : s.AtEdge) (hk : kind ≠ .kwDef) :
    s.expect kind = s.failExpected (.token kind) := by
  rcases expect_cases kind s with ⟨t, u, hlt, rfl, hp, -⟩ | heq
  · exact absurd (h t (by rw [hp.rest]; rfl)) hk
  · exact heq

theorem AtEdge.eat?_eq_none (h : s.AtEdge) (hk : kind ≠ .kwDef) : s.eat? kind = none := by
  refine Option.eq_none_iff_forall_ne_some.mpr fun u hu => ?_
  obtain ⟨t, rfl, hp⟩ := passes_eat? hu
  exact hk (h t (by rw [hp.rest]; rfl))

theorem AtEdge.toBoundary (h : s.AtEdge) : s.toBoundary = s := by
  cases hs : s.rest with
  | nil => exact toBoundary_nil hs
  | cons t ts =>
      have hdef : t.kind = .kwDef := h t (by rw [hs]; rfl)
      rw [toBoundary_cons hs, if_pos (.inr (by rw [hdef]; decide))]

theorem AtEdge.block (h : s.AtEdge) : (s.block closers).after = s := by
  rw [Reader.block]
  split
  · rfl
  · rename_i t u hlt hn
    have hdef : t.kind = .kwDef := h t (by rw [(passes_next? hn).rest]; rfl)
    rw [if_pos (.inl hdef)]

theorem Meets.expect (h : s.Meets [kind]) :
    ∃ t u hlt, t.kind = kind ∧ s.Passes u [t] [] ∧ s.expect kind = .ok t u hlt := by
  obtain ⟨t, us, hs, hk⟩ := h
  obtain ⟨hlt, hn⟩ := next?_eq hs
  have hk := List.mem_singleton.mp hk
  refine ⟨t, s.advance, hlt, hk, .advance hs, ?_⟩
  simp [Reader.expect, hn, hk]

theorem Meets.tail (h : s.Meets (kind :: closers)) (hs : s.eat? kind = none) :
    s.Meets closers := by
  obtain ⟨t, us, hrest, hk⟩ := h
  obtain ⟨hlt, hn⟩ := next?_eq hrest
  rcases List.mem_cons.mp hk with rfl | hk
  · simp [eat?, hn] at hs
  · exact ⟨t, us, hrest, hk⟩

/-- A block from `r` is laid and one of its closers follows, or it was not closed. -/
def Block.Lays {n : Nat} (b : Block n) (closers : List Kind) (r : Reader) : Prop :=
  b.after.AtEdge ∨ r.Lays b.after (Piece.block closers b.stmts) ∧ b.after.Meets closers

/-- Behind a statement that failed: nothing was passed that ends a block, or a block in it was not
closed. -/
def Lost (r s : Reader) : Prop := r.Quiet s ∨ s.AtEdge

/-- A phrase from its first tokens to the `end` of its last block. -/
theorem ends_end {α : Type} {x : α → Phrase} {f : Token → α} (ha : r₀.Spans r ps a)
    (hs : s.AtEdge ∨ r.Lays s qs ∧ s.Meets [.kwEnd])
    (hpieces : ∀ t, (x (f t)).pieces = ps ++ qs ++ [.word (.kind .kwEnd)])
    (hspan : ∀ t, (x (f t)).span = a.merge t.span) :
    ((s.expect .kwEnd).map f).Ends (fun c u => r₀.Lays u [.phrase (x c)]) AtEdge := by
  rcases hs with hs | ⟨hs, hmeets⟩
  · rw [hs.expect (by decide)]
    exact hs
  · obtain ⟨t, u, hlt, hk, hp, heq⟩ := hmeets.expect
    rw [heq]
    exact (ha.join hs (hp.spans_kind hk (by decide))).phrase (hpieces t) (hspan t)

/-- The blocks of the readers with fewer tokens to come are laid. -/
def BlocksBelow (n : Nat) : Prop :=
  ∀ u : Reader, u.rest.length < n → ∀ closers, (∀ k ∈ closers, k ∈ enders) →
    (u.block closers).Lays closers u

/-- The words and the condition in front of a block, and the block. -/
theorem Block.Lays.behind {n : Nat} {b : Block n} (h : b.Lays closers s) (hs : r.Lays s qs) :
    b.after.AtEdge ∨ r.Lays b.after (qs ++ Piece.block closers b.stmts) ∧ b.after.Meets closers :=
  h.imp_right fun ⟨hb, hmeets⟩ => ⟨hs.trans hb, hmeets⟩

theorem lays_ifStmt (ha : r₀.Spans r [.word (.kind .kwIf)] a) (hb : BlocksBelow r.rest.length) :
    (r.ifStmt a).Ends (fun st u => r₀.Lays u [.phrase (.stmt st)]) r.Lost := by
  rw [ifStmt]
  refine Outcome.Ends.bind ((plain_expr 1 r).weaken fun _ => .inl) fun e s hlt hs => ?_
  have hthen := (plain_expect .kwThen (by decide) (by decide) s).behind hs
  refine Outcome.Ends.bind (hthen.weaken fun _ => .inl) fun _ u hlt' hs => ?_
  have hu := Nat.lt_trans hlt' hlt
  have hbody := (hb u hu [.kwElse, .kwEnd] (by decide)).behind hs.lays
  refine Block.ends_bind ?_
  split
  · rename_i v hv heq
    -- Where an `else` follows, the first block was closed.
    obtain hedge | ⟨hbody, -⟩ := hbody
    · rw [hedge.eat?_eq_none (by decide)] at heq
      cases heq
    · obtain ⟨t, hk, hp⟩ := passes_eat? heq
      have hlt := Nat.lt_of_lt_of_le hv (u.block [.kwElse, .kwEnd]).notLonger
      have helse := hbody.trans (hp.spans_kind hk (by decide)).lays
      have hother := (hb v (Nat.lt_trans hlt hu) [.kwEnd] (by decide)).behind helse
      refine (Block.ends_bind ?_).past hv
      refine (ends_end ha hother (fun _ => ?_) fun _ => rfl).weaken fun _ => .inr
      simp [Phrase.pieces]
  · rename_i heq
    have hend := hbody.imp_right fun h => And.intro h.1 (h.2.tail heq)
    exact (ends_end ha hend (fun _ => rfl) fun _ => rfl).weaken fun _ => .inr

theorem lays_whileStmt (ha : r₀.Spans r [.word (.kind .kwWhile)] a)
    (hb : BlocksBelow r.rest.length) :
    (r.whileStmt a).Ends (fun st u => r₀.Lays u [.phrase (.stmt st)]) r.Lost := by
  rw [whileStmt]
  refine Outcome.Ends.bind ((plain_expr 1 r).weaken fun _ => .inl) fun e s hlt hs => ?_
  have hdo := (plain_expect .kwDo (by decide) (by decide) s).behind hs
  refine Outcome.Ends.bind (hdo.weaken fun _ => .inl) fun _ u hlt' hs => ?_
  have hbody := (hb u (Nat.lt_trans hlt' hlt) [.kwEnd] (by decide)).behind hs.lays
  refine Block.ends_bind ?_
  exact (ends_end ha hbody (fun _ => rfl) fun _ => rfl).weaken fun _ => .inr

/-- A statement, with the first token that was passed before it. -/
theorem lays_stmt (hp : r₀.Passes r [t] []) (hb : BlocksBelow r.rest.length) :
    (r.stmt t).Ends (fun st u => r₀.Lays u [.phrase (.stmt st)]) r.Lost := by
  rw [stmt]
  split
  · exact (lays_varDef (hp.spans_kind ‹_› (by decide))).weaken fun _ => .inl
  · exact (lays_returnStmt (hp.spans_kind ‹_› (by decide))).weaken fun _ => .inl
  · exact lays_ifStmt (hp.spans_kind ‹_› (by decide)) hb
  · exact lays_whileStmt (hp.spans_kind ‹_› (by decide)) hb
  · exact (lays_callOrAssign (hp.spans_name ‹_›)).weaken fun _ => .inl
  · exact .inl (Passes.report r _ _).quiet_nil

/-- What is passed where a statement of the block fails is skipped in it. -/
theorem Block.Lays.skip {n : Nat} {b : Block n} (h : b.Lays closers s) (hp : r.Passes s us ds)
    (hus : ∀ t ∈ us, t.kind ∉ Kind.kwDef :: closers) : b.Lays closers r := by
  refine h.imp_right fun ⟨hb, hmeets⟩ => ⟨?_, hmeets⟩
  rw [Piece.block] at hb ⊢
  cases hstmts : b.stmts.map Phrase.stmt <;> rw [hstmts] at hb <;> exact hb.skip hp hus

theorem Block.Lays.cons {n : Nat} {b : Block n} {st : Stmt} (h : b.Lays closers s)
    (hs : r.Lays s [.phrase (.stmt st)]) : (b.cons st).Lays closers r :=
  h.imp_right fun ⟨hb, hmeets⟩ => ⟨(hs.trans hb).skipped, hmeets⟩

/-- **A block is laid, with what is skipped in it, if it is closed.** -/
theorem lays_block (closers : List Kind) (hc : ∀ k ∈ closers, k ∈ enders) (r : Reader) :
    (r.block closers).Lays closers r := by
  rw [Reader.block]
  split
  · rename_i hn
    refine .inl fun t ht => ?_
    rw [next?_eq_none_iff.mp hn] at ht
    cases ht
  · rename_i t s hlt hn
    have hp := passes_next? hn
    split
    · rename_i hk
      rcases hk with hk | hk
      · refine .inl fun u hu => ?_
        rw [hp.rest] at hu
        obtain rfl := Option.some.inj hu
        exact hk
      · exact .inr ⟨(Lays.refl r).skipped, t, s.rest, hp.rest, hk⟩
    · rename_i hk
      have hst := lays_stmt hp fun u hu closers hc =>
        have := Nat.lt_trans hu hlt
        lays_block closers hc u
      split
      · rename_i st s' h heq
        rw [heq] at hst
        exact (lays_block closers hc s').cons hst
      · rename_i s' h heq
        rw [heq] at hst
        have hle := length_toBoundary_le s'
        have hblock := lays_block closers hc s'.toBoundary
        rcases hst with hquiet | hedge
        · -- Neither the first token of the statement nor the others could have ended the block.
          obtain ⟨us, ds, hus, hends⟩ := hquiet.trans (quiet_toBoundary s')
          refine hblock.skip (hp.trans hus) ?_
          rintro u (_ | ⟨_, hu⟩)
          · exact fun h => hk (List.mem_cons.mp h)
          · refine fun h => hends u hu ?_
            rcases List.mem_cons.mp h with h | h
            · rw [h]
              decide
            · exact hc _ h
        · left
          change (s'.toBoundary.block closers).after.AtEdge
          rw [hedge.toBoundary, hedge.block]
          exact hedge
termination_by r.rest.length

/-! ### Scripts -/

theorem lays_procedure (ha : r₀.Spans r [.word (.kind .kwDef)] a) :
    (r.procedure a).Ends (fun p u => r₀.Lays u [.phrase (.procedure p)]) fun _ => True := by
  have hopen {α : Type} {n : Nat} {o : Outcome α n} {f : α → List Piece} (h : o.Plain r f) :
      o.Ends (fun c s => r.Plain s (f c)) fun _ => True :=
    Outcome.Ends.weaken h fun _ _ => trivial
  rw [procedure]
  refine Outcome.Ends.bind (hopen (plain_name r)) fun name s _ hs => ?_
  have hleft := (plain_expect .leftParen (by decide) (by decide) s).behind hs
  refine Outcome.Ends.bind (hopen hleft) fun _ s _ hs => ?_
  refine Outcome.Ends.bind (hopen ((plain_params s).behind hs)) fun params s _ hs => ?_
  have hcolon := (plain_expect .colon (by decide) (by decide) s).behind hs
  refine Outcome.Ends.bind (hopen hcolon) fun _ s _ hs => ?_
  refine Outcome.Ends.bind (hopen ((plain_typeName s).behind hs)) fun returns s _ hs => ?_
  have his := (plain_expect .kwIs (by decide) (by decide) s).behind hs
  refine Outcome.Ends.bind (hopen his) fun _ s _ hs => ?_
  have hbody := (lays_block [.kwEnd] (by decide) s).behind hs.lays
  refine Block.ends_bind ?_
  refine (ends_end ha hbody (fun _ => ?_) fun _ => rfl).weaken fun _ _ => trivial
  simp [Phrase.pieces]

/-- What is passed and belongs to no procedure is skipped. -/
theorem Lays.stray {xs : List Phrase} (h : s.Lays u (Piece.among [] xs)) (hp : r.Passes s us ds) :
    r.Lays u (Piece.among [] xs) := by
  cases xs <;> exact h.skip hp fun _ _ => List.not_mem_nil

/-- **Procedures are laid, with what is skipped between them.** -/
theorem lays_procedures (r : Reader) :
    r.Lays r.procedures.2 (Piece.among [] (r.procedures.1.map .procedure)) := by
  rw [procedures]
  split
  · exact (Lays.refl r).skipped
  · rename_i t s hlt hn
    have hp := passes_next? hn
    split
    · have hr := lays_procedure (hp.spans_kind ‹t.kind = .kwDef› (by decide))
      have hpast : (s.procedure t.span).Reads r Procedure.words :=
        reads_procedure (hp.trail_kind ‹_› (by decide))
      split
      · rename_i p s' h heq
        rw [heq] at hr
        exact (hr.trans (lays_procedures s')).skipped
      · rename_i s' h heq
        rw [heq] at hpast
        obtain ⟨us, ds, hus, -⟩ := hpast
        obtain ⟨ts, hts⟩ := passes_toDef s'
        have hle := length_toDef_le s'
        exact (lays_procedures s'.toDef).stray (hus.trans hts)
    · obtain ⟨ts, hts⟩ := passes_toDef (s.report (.expected (.token .kwDef) t.kind) t.span)
      have hle := length_pastStray_le t s
      exact (lays_procedures (s.pastStray t)).stray ((hp.trans (.report s _ _)).trans hts)
termination_by r.rest.length

end Reader

/-- **The tokens of a script are its procedures and what was skipped.** -/
theorem Script.reads_ofTokens (ts : List Token) :
    Piece.Reads (Script.ofTokens ts).1.pieces (Reader.ofTokens ts).rest := by
  obtain ⟨us, ds, hp, hr⟩ := Reader.lays_procedures (Reader.ofTokens ts)
  have hrest := hp.rest
  rw [Reader.procedures_rest, List.append_nil] at hrest
  rw [hrest]
  exact hr

end ProcScript
