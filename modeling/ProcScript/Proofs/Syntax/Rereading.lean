import ProcScript.Proofs.Syntax.Trail
import ProcScript.Reader.Script

/-!
# Syntax — the words of a tree, read

A reader that faces the words of a tree reads that tree, up to numbers and spans, and finds
nothing wrong (`Script.ofTokens_of_words`).  For expressions the tree has to be nested, and the
words behind it must not go on with it: `Stops min` says that no operator of level `min` or
more comes next and no `(`.  The words of the left operand of an operator are followed by the
operator itself, which the reader takes up only behind them; so what is shown by induction on
the expression is not what is read but where the reader of operators takes over
(`Reader.Reaches`).
-/

namespace ProcScript

/-- It succeeds with what is `good`. -/
def Outcome.Gives {α : Type} {n : Nat} (o : Outcome α n) (good : α → Reader → Prop) : Prop :=
  o.Ends good fun _ => False

theorem Outcome.Gives.imp {α : Type} {n : Nat} {o : Outcome α n}
    {good good' : α → Reader → Prop} (h : o.Gives good)
    (himp : ∀ a s, good a s → good' a s) : o.Gives good' :=
  Outcome.Ends.imp h himp fun _ => id

/-- What cannot fail may be asked anything if it does. -/
theorem Outcome.Gives.ends {α : Type} {n : Nat} {o : Outcome α n} {good : α → Reader → Prop}
    (h : o.Gives good) (lost : Reader → Prop) : o.Ends good lost :=
  Outcome.Ends.weaken h fun _ => False.elim

theorem Outcome.Gives.past {α : Type} {m n : Nat} {o : Outcome α m} {good : α → Reader → Prop}
    (h : o.Gives good) (hlt : m < n) : (o.past hlt).Gives good :=
  Outcome.Ends.past h hlt

theorem Outcome.gives_iff {α : Type} {n : Nat} {o : Outcome α n} {good : α → Reader → Prop} :
    o.Gives good ↔ ∃ a s h, o = .ok a s h ∧ good a s := by
  cases o with
  | ok a s h =>
      constructor
      · intro hg
        exact ⟨a, s, h, rfl, hg⟩
      · rintro ⟨_, _, _, heq, hg⟩
        cases heq
        exact hg
  | fail s h =>
      constructor
      · intro hf
        exact hf.elim
      · rintro ⟨_, _, _, heq, _⟩
        cases heq

/-- The next word goes on with no expression at level `min`. -/
def Word.Stops (min : Nat) (ws : List Word) : Prop :=
  ∃ w, ws.head? = some w ∧ w ≠ .kind .leftParen ∧
    ∀ op : BinaryOp, w = .kind op.kind → op.level < min

namespace Word.Stops

variable {m n : Nat} {ws : List Word}

theorem mono (h : Stops m ws) (hle : m ≤ n) : Stops n ws := by
  obtain ⟨w, hw, hp, hop⟩ := h
  exact ⟨w, hw, hp, fun op h => Nat.lt_of_lt_of_le (hop op h) hle⟩

theorem tightest (h : Stops m ws) : Stops Reader.tightest ws := by
  obtain ⟨w, hw, hp, hop⟩ := h
  exact ⟨w, hw, hp, fun op _ => op.level_lt_tightest⟩

/-- An operator goes on with nothing above its level. -/
theorem operator {op : BinaryOp} (h : op.level < m) : Stops m (.kind op.kind :: ws) := by
  refine ⟨_, rfl, ?_, ?_⟩
  · cases op <;> decide
  · intro op' heq
    -- Operators of one kind are one operator.
    cases op <;> cases op' <;> first | exact h | cases heq

theorem kind {k : Kind} (hp : k ≠ .leftParen) (hop : k.binaryOp? = none) :
    Stops m (.kind k :: ws) := by
  refine ⟨_, rfl, ?_, ?_⟩
  · intro heq
    exact hp (by cases heq; rfl)
  · rintro op heq
    cases heq
    rw [op.binaryOp?_kind] at hop
    cases hop

end Word.Stops

namespace Reader

/-- The words `ws` are to come and no more, each literal among them is in range, and what was found
is `ds`. -/
structure Faces (r : Reader) (ws : List Word) (ds : List Diagnostic) : Prop where
  words : r.rest.map Token.word = ws
  readable : ∀ t ∈ r.rest, t.Readable
  found : r.found = ds

variable {r s : Reader} {ws : List Word} {w : Word} {ds : List Diagnostic} {k : Kind}

theorem Faces.next? (h : r.Faces (w :: ws) ds) :
    ∃ t s hlt, r.next? = some (t, ⟨s, hlt⟩) ∧ t.word = w ∧ t.Readable ∧ s.Faces ws ds := by
  obtain ⟨t, ts, hr, hw, hws⟩ := List.map_eq_cons_iff.mp h.words
  obtain ⟨hlt, hn⟩ := next?_eq hr
  have hp := Passes.advance hr
  have hs : r.advance.rest = ts := List.tail_eq_of_cons_eq (hp.rest.symm.trans hr)
  refine ⟨t, r.advance, hlt, hn, hw, h.readable t (by simp [hr]), ?_, ?_, ?_⟩
  · rw [hs, hws]
  · intro t' ht'
    exact h.readable t' (by rw [hr]; exact List.mem_cons_of_mem t (hs ▸ ht'))
  · rw [hp.found, List.append_nil, h.found]

theorem Faces.peek (h : r.Faces (w :: ws) ds) : r.peek = w.tokenKind := by
  obtain ⟨t, ts, hr, rfl, -⟩ := List.map_eq_cons_iff.mp h.words
  rw [peek_eq hr, Token.tokenKind_word]

/-- What comes next where an expression starts. -/
theorem Faces.peek_expr {e : Expr} (h : r.Faces (e.words ++ ws) ds) (hk : k ∉ Expr.starts) :
    r.peek ≠ k := by
  obtain ⟨w, vs, hw, hmem⟩ := e.words_eq_cons
  rw [hw] at h
  intro heq
  rw [h.peek] at heq
  exact hk (heq ▸ hmem)

theorem Faces.expect (h : r.Faces (w :: ws) ds) (hw : w.tokenKind = k) :
    (r.expect k).Gives fun t s => t.word = w ∧ s.Faces ws ds := by
  obtain ⟨t, s, hlt, hn, rfl, -, hs⟩ := h.next?
  rw [Token.tokenKind_word] at hw
  simp only [Reader.expect, hn, hw, if_true]
  exact ⟨rfl, hs⟩

theorem Faces.expect_kind (h : r.Faces (.kind k :: ws) ds) :
    (r.expect k).Gives fun _ s => s.Faces ws ds :=
  (h.expect rfl).imp fun _ _ hs => hs.2

theorem Faces.expect_name {name : String} (h : r.Faces (.name name :: ws) ds) :
    (r.expect .identifier).Gives fun t s => t.lexeme = name ∧ s.Faces ws ds := by
  exact (h.expect rfl).imp fun t s ⟨hw, hs⟩ => ⟨Token.lexeme_of_word hw, hs⟩

theorem Faces.typeName {a : TypeName} (h : r.Faces (.name a.name :: ws) ds) :
    r.typeName.Gives fun b s => b.bare = a.bare ∧ s.Faces ws ds :=
  Outcome.Ends.map (h.expect_name.imp fun _ _ ⟨hn, hs⟩ =>
    ⟨by rw [TypeName.bare, TypeName.bare, hn], hs⟩)

theorem Faces.eat? (h : r.Faces (.kind k :: ws) ds) :
    ∃ s, r.eat? k = some s ∧ s.val.Faces ws ds := by
  obtain ⟨t, s, hlt, hn, hw, -, hs⟩ := h.next?
  have hk : t.kind = k := Token.kind_of_word hw
  exact ⟨⟨s, hlt⟩, by simp only [Reader.eat?, hn, hk, if_true], hs⟩

theorem Faces.eat?_eq_none (h : r.Faces (w :: ws) ds) (hk : w.tokenKind ≠ k) :
    r.eat? k = none := by
  obtain ⟨t, s, hlt, hn, rfl, -, -⟩ := h.next?
  rw [Token.tokenKind_word] at hk
  simp only [Reader.eat?, hn, if_neg hk]

/-! ### Expressions -/

/-- An operator that does not hold tightly enough is left to come. -/
theorem operators_eq {min : Nat} (h : s.Faces ws ds) (hws : Word.Stops min ws) (v : Expr) :
    s.operators min v = .ok v s (Nat.lt_succ_self _) := by
  obtain ⟨w, hw, -, hop⟩ := hws
  obtain ⟨ws, rfl⟩ := List.head?_eq_some_iff.mp hw
  obtain ⟨t, s', hlt, hn, rfl, -, -⟩ := h.next?
  rw [operators, hn]
  simp only
  split
  · rfl
  · rename_i level op heq
    obtain ⟨hk, rfl⟩ := Kind.binaryOp?_eq_some_iff.mp heq
    rw [if_pos (hop op (Token.word_of_kind hk op.isFixed_kind))]

/-- From `r` the expression `e` is read, and the operators of level `min` behind it are next. -/
def Reaches (r : Reader) (min : Nat) (e : Expr) (ws : List Word) (ds : List Diagnostic) : Prop :=
  ∃ (v : Expr) (s : Reader) (h : s.rest.length < r.rest.length),
    r.expr min = (s.operators min v).mono h ∧ v.bare = e.bare ∧ s.Faces ws ds

theorem Reaches.gives {min : Nat} {e : Expr} (h : r.Reaches min e ws ds)
    (hws : Word.Stops min ws) :
    (r.expr min).Gives fun v s => v.bare = e.bare ∧ s.Faces ws ds := by
  obtain ⟨v, s, hlt, heq, hv, hs⟩ := h
  rw [heq, operators_eq hs hws]
  exact ⟨hv, hs⟩

theorem reaches_of_operand {min : Nat} {e : Expr}
    (h : r.operand.Gives fun v s => v.bare = e.bare ∧ s.Faces ws ds) : r.Reaches min e ws ds := by
  obtain ⟨v, s, hlt, heq, hv, hs⟩ := Outcome.gives_iff.mp h
  refine ⟨v, s, hlt, ?_, hv, hs⟩
  rw [expr, heq]

theorem Faces.number {n : Nat} {o : Outcome (ExprId → Expr) n} {e : Expr}
    (h : o.Gives fun node s => (∀ id, (node id).bare = e.bare) ∧ s.Faces ws ds) :
    o.number.Gives fun v s => v.bare = e.bare ∧ s.Faces ws ds :=
  Outcome.Ends.number (h.imp fun _ _ ⟨hn, hs⟩ => ⟨hn _, hs.words, hs.readable, hs.found⟩)

theorem operand_var {name : String} {id : ExprId} {span : Span} {min : Nat}
    (hr : r.Faces (.name name :: ws) ds) (hws : Word.Stops min ws) :
    r.operand.Gives fun v s => v.bare = (Expr.var name id span).bare ∧ s.Faces ws ds := by
  obtain ⟨t, s, hlt, hn, hw, -, hs⟩ := hr.next?
  obtain ⟨w, hhead, hparen, -⟩ := hws
  obtain ⟨ws, rfl⟩ := List.head?_eq_some_iff.mp hhead
  have hk : t.kind = .identifier := Token.kind_of_word hw
  have hl : t.lexeme = name := Token.lexeme_of_word hw
  -- A name with a `(` behind it would be taken for a call.
  have hp : s.peek ≠ .leftParen := by
    rw [hs.peek]
    intro heq
    cases w <;> simp_all [Word.tokenKind]
  rw [operand, hn]
  simp only [hk]
  refine Faces.number (Outcome.Ends.map ?_)
  rw [variableName, if_neg hp]
  exact ⟨fun _ => by rw [hl]; rfl, hs⟩

theorem operand_int {value : Int32} {id : ExprId} {span : Span}
    (hr : r.Faces (.int value :: ws) ds) :
    r.operand.Gives fun v s => v.bare = (Expr.int value id span).bare ∧ s.Faces ws ds := by
  obtain ⟨t, s, hlt, hn, hw, hread, hs⟩ := hr.next?
  have hk : t.kind = .intLiteral := Token.kind_of_word hw
  obtain ⟨value', hv⟩ := Option.isSome_iff_exists.mp (hread hk)
  have heq : value' = value := by
    rw [Token.word_of_intLiteral hk, hv] at hw
    cases hw
    rfl
  rw [operand, hn]
  simp only [hk]
  refine Faces.number (Outcome.Ends.map ?_)
  rw [literal]
  split
  · rename_i value'' hv'
    obtain rfl := Option.some.inj (hv'.symm.trans hv)
    exact ⟨fun _ => by rw [heq]; rfl, hs⟩
  · rename_i hv'
    rw [hv'] at hv
    cases hv

theorem operand_bool {value : Bool} {id : ExprId} {span : Span}
    (hr : r.Faces ((Expr.bool value id span).words ++ ws) ds) :
    r.operand.Gives fun v s => v.bare = (Expr.bool value id span).bare ∧ s.Faces ws ds := by
  obtain ⟨t, s, hlt, hn, hw, -, hs⟩ := hr.next?
  have hk : t.kind = if value then .kwTrue else .kwFalse := Token.kind_of_word hw
  rw [operand, hn]
  cases value with
  | true =>
      simp only [hk, if_true]
      exact Faces.number ⟨fun _ => rfl, hs⟩
  | false =>
      simp only [hk, Bool.false_eq_true, if_false]
      exact Faces.number ⟨fun _ => rfl, hs⟩

/-- **Where the reader of operators takes over.**  Reading on from the words of a nested expression
is reading its operators once the expression is read. -/
theorem reaches {e : Expr} (he : e.Nested) {min : Nat} (hmin : min ≤ e.level) {r : Reader}
    {ws : List Word} (hr : r.Faces (e.words ++ ws) ds) (hws : Word.Stops (e.level + 1) ws) :
    r.Reaches min e ws ds := by
  induction e generalizing min r ws with
  | var name id span => exact reaches_of_operand (operand_var hr hws)
  | bool value id span => exact reaches_of_operand (operand_bool hr)
  | int value id span => exact reaches_of_operand (operand_int hr)
  | unary op e id span ih =>
      obtain ⟨hl, he⟩ := he
      obtain ⟨t, s, hlt, hn, hw, -, hs⟩ := hr.next?
      have hk : t.kind = op.kind := Token.kind_of_word hw
      -- The operand is read at the tightest level, so every operator behind it is left to come.
      have hg := (ih he (Nat.le_of_eq hl.symm) hs (hl ▸ hws)).gives hws.tightest
      refine reaches_of_operand ?_
      rw [operand, hn]
      cases op with
      | neg =>
          simp only [hk, UnaryOp.kind]
          refine (Faces.number (Outcome.Ends.map (hg.imp ?_))).past hlt
          rintro v u ⟨hv, hu⟩
          exact ⟨fun _ => by simp only [Expr.bare, hv], hu⟩
      | not =>
          simp only [hk, UnaryOp.kind]
          refine (Faces.number (Outcome.Ends.map (hg.imp ?_))).past hlt
          rintro v u ⟨hv, hu⟩
          exact ⟨fun _ => by simp only [Expr.bare, hv], hu⟩
  | paren e id span ih =>
      simp only [Expr.words, List.cons_append, List.append_assoc, List.nil_append] at hr
      obtain ⟨t, s, hlt, hn, hw, -, hs⟩ := hr.next?
      have hk : t.kind = .leftParen := Token.kind_of_word hw
      -- Whatever the level outside, inside the parentheses it starts at 1 again.
      have hg := (ih he e.one_le_level hs (.kind (by decide) rfl)).gives
        (.kind (by decide) rfl)
      refine reaches_of_operand ?_
      rw [operand, hn]
      simp only [hk]
      refine (Faces.number (Outcome.Ends.bind hg fun v u _ hv => ?_)).past hlt
      refine Outcome.Ends.map (hv.2.expect_kind.imp ?_)
      intro close u' hu
      exact ⟨fun _ => by simp only [Expr.bare, hv.1], hu⟩
  | binary op left right id span ihl ihr =>
      obtain ⟨hl, hlr, hleft, hright⟩ := he
      simp only [Expr.words, List.append_assoc, List.cons_append] at hr
      -- The left operand, then the operator, then the right operand, none of whose operators are
      -- left to come.
      obtain ⟨v, s, hlt, heq, hv, hs⟩ := ihl hleft (Nat.le_trans hmin hl) hr
        (.operator (Nat.lt_succ_of_le hl))
      obtain ⟨t, s', hlt', hn, hw, -, hs'⟩ := hs.next?
      have hk : t.kind = op.kind := Token.kind_of_word hw
      have hg := (ihr hright hlr hs' (hws.mono (Nat.le_succ_of_le hlr))).gives hws
      have hg' : ((s'.expr (op.level + 1)).map fun right id =>
          Expr.binary op v right id (v.span.merge right.span)).number.Gives fun v s =>
            v.bare = (Expr.binary op left right id span).bare ∧ s.Faces ws ds := by
        refine Faces.number (Outcome.Ends.map (hg.imp ?_))
        rintro v' u ⟨hv', hu⟩
        exact ⟨fun _ => by simp only [Expr.bare, hv, hv'], hu⟩
      have hge : ¬ op.level < min := Nat.not_lt.mpr hmin
      obtain ⟨e', u, hltu, heq', he', hu⟩ := Outcome.gives_iff.mp hg'
      refine ⟨e', u, by omega, ?_, he', hu⟩
      rw [heq, operators, hn]
      simp only [hk, op.binaryOp?_kind, if_neg hge, heq', Outcome.mono_mono]

theorem Faces.expression {e : Expr} (h : r.Faces (e.words ++ ws) ds) (he : e.Nested)
    (hws : Word.Stops 1 ws) : r.expression.Gives fun v s => v.bare = e.bare ∧ s.Faces ws ds :=
  (reaches he e.one_le_level h (hws.mono (Nat.le_succ_of_le e.one_le_level))).gives hws

/-! ### Lists -/

section
variable {α : Type} {f : α → α} {a b : α} {bs : List α}

/-- The last of a list, with the `)` behind it. -/
theorem Faces.last (h : r.Faces (.kind .rightParen :: ws) ds) (hab : f a = f b) :
    ((r.expect .rightParen).map fun _ => [a]).Gives fun as s =>
      as.map f = [b].map f ∧ s.Faces ws ds := by
  refine Outcome.Ends.map (h.expect_kind.imp fun _ s hs => ⟨?_, hs⟩)
  rw [List.map_singleton, List.map_singleton, hab]

/-- One of a list, with others behind it. -/
theorem gives_cons {m n : Nat} {o : Outcome (List α) m} (hab : f a = f b)
    (h : o.Gives fun as s => as.map f = bs.map f ∧ s.Faces ws ds) (hlt : m < n) :
    ((o.map (a :: ·)).past hlt).Gives fun as s => as.map f = (b :: bs).map f ∧ s.Faces ws ds := by
  refine Outcome.Gives.past (Outcome.Ends.map (h.imp fun as s hs => ⟨?_, hs.2⟩)) hlt
  rw [List.map_cons, List.map_cons, hab, hs.1]

end

theorem Faces.expressions {es : List Expr} (hne : es ≠ []) (hes : ∀ e ∈ es, e.Nested) {r : Reader}
    (h : r.Faces (Word.separated (es.map Expr.words) ++ .kind .rightParen :: ws) ds) :
    r.expressions.Gives fun vs s => vs.map Expr.bare = es.map Expr.bare ∧ s.Faces ws ds := by
  induction es generalizing r with
  | nil => exact absurd rfl hne
  | cons e es ih =>
      rw [Reader.expressions]
      have he := hes e (List.mem_cons_self ..)
      cases es with
      | nil =>
          simp only [List.map_cons, List.map_nil, Word.separated] at h
          refine Outcome.Ends.bind (h.expression he (.kind (by decide) rfl)) fun v s _ hv => ?_
          rw [hv.2.eat?_eq_none (by decide)]
          exact hv.2.last hv.1
      | cons e' es =>
          simp only [List.map_cons, Word.separated, List.append_assoc, List.cons_append] at h
          refine Outcome.Ends.bind (h.expression he (.kind (by decide) rfl)) fun v s _ hv => ?_
          obtain ⟨s', heq, hs'⟩ := hv.2.eat?
          rw [heq]
          have hrest : ∀ e ∈ e' :: es, e.Nested := fun e h => hes e (List.mem_cons_of_mem _ h)
          exact gives_cons hv.1 (ih (List.cons_ne_nil e' es) hrest hs') s'.property

theorem Faces.arguments {es : List Expr} (hes : ∀ e ∈ es, e.Nested)
    (h : r.Faces (Word.separated (es.map Expr.words) ++ .kind .rightParen :: ws) ds) :
    r.arguments.Gives fun vs s => vs.map Expr.bare = es.map Expr.bare ∧ s.Faces ws ds := by
  rw [Reader.arguments]
  cases es with
  | nil =>
      have hp : r.peek = .rightParen := h.peek
      rw [if_pos hp]
      exact Outcome.Ends.map (h.expect_kind.imp fun _ s hs => ⟨rfl, hs⟩)
  | cons e es =>
      have hp : r.peek ≠ .rightParen := by
        cases es <;> simp only [List.map_cons, List.map_nil, Word.separated, List.append_assoc] at h
          <;> exact h.peek_expr (by decide)
      rw [if_neg hp]
      exact Faces.expressions (List.cons_ne_nil e es) hes h

theorem Faces.param {q : Param} (h : r.Faces (q.words ++ ws) ds) :
    r.param.Gives fun p s => p.bare = q.bare ∧ s.Faces ws ds := by
  rw [Reader.param]
  refine Outcome.Ends.bind h.expect_name fun name s _ ⟨hn, hs⟩ => ?_
  refine Outcome.Ends.bind hs.expect_kind fun _ s _ hs => ?_
  exact Outcome.Ends.map (hs.typeName.imp fun type s ⟨ht, hs⟩ =>
    ⟨by simp only [Param.bare, hn, ht], hs⟩)

theorem Faces.paramList {qs : List Param} (hne : qs ≠ []) {r : Reader}
    (h : r.Faces (Word.separated (qs.map Param.words) ++ .kind .rightParen :: ws) ds) :
    r.paramList.Gives fun ps s => ps.map Param.bare = qs.map Param.bare ∧ s.Faces ws ds := by
  induction qs generalizing r with
  | nil => exact absurd rfl hne
  | cons q qs ih =>
      rw [Reader.paramList]
      cases qs with
      | nil =>
          simp only [List.map_cons, List.map_nil, Word.separated] at h
          refine Outcome.Ends.bind h.param fun p s _ hp => ?_
          rw [hp.2.eat?_eq_none (by decide)]
          exact hp.2.last hp.1
      | cons q' qs =>
          simp only [List.map_cons, Word.separated, List.append_assoc, List.cons_append] at h
          refine Outcome.Ends.bind h.param fun p s _ hp => ?_
          obtain ⟨s', heq, hs'⟩ := hp.2.eat?
          rw [heq]
          exact gives_cons hp.1 (ih (List.cons_ne_nil q' qs) hs') s'.property

theorem Faces.params {qs : List Param}
    (h : r.Faces (Word.separated (qs.map Param.words) ++ .kind .rightParen :: ws) ds) :
    r.params.Gives fun ps s => ps.map Param.bare = qs.map Param.bare ∧ s.Faces ws ds := by
  rw [Reader.params]
  cases qs with
  | nil =>
      have hp : r.peek = .rightParen := h.peek
      rw [if_pos hp]
      exact Outcome.Ends.map (h.expect_kind.imp fun _ s hs => ⟨rfl, hs⟩)
  | cons q qs =>
      have hp : r.peek = .identifier := by cases qs <;> exact h.peek
      rw [if_neg (by rw [hp]; decide)]
      exact Faces.paramList (List.cons_ne_nil q qs) h

/-! ### Statements -/

theorem Faces.varDef {start span : Span} {name : String} {a : TypeName}
    (h : r.Faces (.name name :: .kind .colon :: .name a.name :: .kind .semicolon :: ws) ds) :
    (r.varDef start).Gives fun v s => v.bare = (Stmt.varDef name a none span).bare ∧
      s.Faces ws ds := by
  rw [Reader.varDef]
  refine Outcome.Ends.bind h.expect_name fun name s _ ⟨hn, hs⟩ => ?_
  refine Outcome.Ends.bind hs.expect_kind fun _ s _ hs => ?_
  refine Outcome.Ends.bind hs.typeName fun type s _ ⟨ht, hs⟩ => ?_
  rw [hs.eat?_eq_none (by decide)]
  exact Outcome.Ends.map (hs.expect_kind.imp fun _ u hu =>
    ⟨by simp only [Stmt.bare, hn, ht, Option.map_none], hu⟩)

theorem Faces.varDef_init {start span : Span} {name : String} {a : TypeName} {e : Expr}
    (he : e.Nested) (h : r.Faces (.name name :: .kind .colon :: .name a.name ::
      .kind .colonEqual :: (e.words ++ .kind .semicolon :: ws)) ds) :
    (r.varDef start).Gives fun v s => v.bare = (Stmt.varDef name a (some e) span).bare ∧
      s.Faces ws ds := by
  rw [Reader.varDef]
  refine Outcome.Ends.bind h.expect_name fun name s _ ⟨hn, hs⟩ => ?_
  refine Outcome.Ends.bind hs.expect_kind fun _ s _ hs => ?_
  refine Outcome.Ends.bind hs.typeName fun type s _ ⟨ht, hs⟩ => ?_
  obtain ⟨s', heq, hs'⟩ := hs.eat?
  rw [heq]
  refine (Outcome.Ends.bind (hs'.expression he (.kind (by decide) rfl)) fun v s _ hv => ?_).past
    s'.property
  exact Outcome.Ends.map (hv.2.expect_kind.imp fun _ u hu =>
    ⟨by simp only [Stmt.bare, hn, ht, Option.map_some, hv.1], hu⟩)

theorem Faces.returnStmt {start span : Span} (h : r.Faces (.kind .semicolon :: ws) ds) :
    (r.returnStmt start).Gives fun v s => v.bare = (Stmt.ret none span).bare ∧ s.Faces ws ds := by
  have hp : r.peek = .semicolon := h.peek
  rw [Reader.returnStmt, if_pos hp]
  exact Outcome.Ends.map (h.expect_kind.imp fun _ u hu => ⟨rfl, hu⟩)

theorem Faces.returnStmt_value {start span : Span} {e : Expr} (he : e.Nested)
    (h : r.Faces (e.words ++ .kind .semicolon :: ws) ds) :
    (r.returnStmt start).Gives fun v s => v.bare = (Stmt.ret (some e) span).bare ∧
      s.Faces ws ds := by
  rw [Reader.returnStmt, if_neg (h.peek_expr (by decide))]
  refine Outcome.Ends.bind (h.expression he (.kind (by decide) rfl)) fun v s _ hv => ?_
  exact Outcome.Ends.map (hv.2.expect_kind.imp fun _ u hu =>
    ⟨by simp only [Stmt.bare, Option.map_some, hv.1], hu⟩)

theorem Faces.call {name : Token} {span : Span} {es : List Expr} (hes : ∀ e ∈ es, e.Nested)
    (h : r.Faces (.kind .leftParen :: (Word.separated (es.map Expr.words) ++
      .kind .rightParen :: .kind .semicolon :: ws)) ds) :
    (r.callOrAssign name).Gives fun v s => v.bare = (Stmt.call name.lexeme es span).bare ∧
      s.Faces ws ds := by
  have hp : r.peek = .leftParen := h.peek
  simp only [Reader.callOrAssign, hp]
  refine Outcome.Ends.bind h.expect_kind fun _ s _ hs => ?_
  refine Outcome.Ends.bind (hs.arguments hes) fun vs s _ hv => ?_
  exact Outcome.Ends.map (hv.2.expect_kind.imp fun _ u hu =>
    ⟨by simp only [Stmt.bare, hv.1], hu⟩)

theorem Faces.assign {name : Token} {span : Span} {e : Expr} (he : e.Nested)
    (h : r.Faces (.kind .colonEqual :: (e.words ++ .kind .semicolon :: ws)) ds) :
    (r.callOrAssign name).Gives fun v s => v.bare = (Stmt.assign name.lexeme e span).bare ∧
      s.Faces ws ds := by
  have hp : r.peek = .colonEqual := h.peek
  simp only [Reader.callOrAssign, hp]
  refine Outcome.Ends.bind h.expect_kind fun _ s _ hs => ?_
  refine Outcome.Ends.bind (hs.expression he (.kind (by decide) rfl)) fun v s _ hv => ?_
  exact Outcome.Ends.map (hv.2.expect_kind.imp fun _ u hu =>
    ⟨by simp only [Stmt.bare, hv.1], hu⟩)

/-- A block has been read up to a word that closes it. -/
def Block.Gives {n : Nat} (b : Block n) (ss : List Stmt) (ws : List Word) (ds : List Diagnostic) :
    Prop :=
  ProcScript.Block.bare b.stmts = ProcScript.Block.bare ss ∧ b.after.Faces ws ds

/-- The next word closes a block. -/
def Closes (closers : List Kind) (ws : List Word) : Prop :=
  closers ⊆ [.kwElse, .kwEnd] ∧ ∃ k ∈ closers, ws.head? = some (.kind k)

/-- A reader that faces the words of a block, and one that closes it, reads the block. -/
def GivesBlock (ss : List Stmt) (ds : List Diagnostic) : Prop :=
  ∀ ⦃closers : List Kind⦄ ⦃r : Reader⦄ ⦃ws : List Word⦄, Closes closers ws →
    r.Faces (ProcScript.Block.words ss ++ ws) ds → (r.block closers).Gives ss ws ds

theorem closes_end (closers : List Kind) (h : closers ⊆ [.kwElse, .kwEnd])
    (hmem : .kwEnd ∈ closers) : Closes closers (.kind .kwEnd :: ws) :=
  ⟨h, .kwEnd, hmem, rfl⟩

theorem closes_else : Closes [.kwElse, .kwEnd] (.kind .kwElse :: ws) :=
  ⟨by decide, .kwElse, by decide, rfl⟩

/-- What is read from the block that is the rest of a construct, up to its `end`. -/
def closed {α : Type} (make : List Stmt → Span → α) (start : Span) (r : Reader) :
    Outcome α r.rest.length :=
  (r.block [.kwEnd]).bind fun body s _ => (s.expect .kwEnd).map fun t =>
    make body (start.merge t.span)

/-- What is read of an `if` behind its `then`. -/
def branches (e : Expr) (start : Span) (r : Reader) : Outcome Stmt r.rest.length :=
  (r.block [.kwElse, .kwEnd]).bind fun body s _ =>
    match s.eat? .kwElse with
    | some ⟨s', h⟩ => (s'.closed (Stmt.ifElse e body) start).past h
    | none => (s.expect .kwEnd).map fun t => .ifThen e body (start.merge t.span)

section
variable {start span : Span} {e v : Expr} {body other : List Stmt} {done : Stmt → Reader → Prop}
  {lost : Reader → Prop}

/-- An `if` is read as what is behind its `then`. -/
theorem Faces.ifStmt (he : e.Nested) (h : r.Faces (e.words ++ .kind .kwThen :: ws) ds)
    (hk : ∀ (v : Expr) (s : Reader), v.bare = e.bare → s.Faces ws ds →
      (s.branches v start).Ends done lost) :
    (r.ifStmt start).Ends done lost := by
  rw [Reader.ifStmt]
  refine Outcome.Ends.bind ((h.expression he (.kind (by decide) rfl)).ends lost) fun v s _ hv => ?_
  refine Outcome.Ends.bind (hv.2.expect_kind.ends lost) fun _ s _ hs => ?_
  exact hk v s hv.1 hs

/-- A `while` is read as what is behind its `do`. -/
theorem Faces.whileStmt (he : e.Nested) (h : r.Faces (e.words ++ .kind .kwDo :: ws) ds)
    (hk : ∀ (v : Expr) (s : Reader), v.bare = e.bare → s.Faces ws ds →
      (s.closed (Stmt.whileDo v) start).Ends done lost) :
    (r.whileStmt start).Ends done lost := by
  rw [Reader.whileStmt]
  refine Outcome.Ends.bind ((h.expression he (.kind (by decide) rfl)).ends lost) fun v s _ hv => ?_
  refine Outcome.Ends.bind (hv.2.expect_kind.ends lost) fun _ s _ hs => ?_
  exact hk v s hv.1 hs

/-- The block that is the rest of a construct, with the `end` behind it. -/
theorem Block.Gives.closed {α : Type} {make : List Stmt → Span → α}
    (hb : (r.block [.kwEnd]).Gives body (.kind .kwEnd :: ws) ds) :
    (r.closed make start).Gives fun a u => (∃ ss x, a = make ss x ∧
      ProcScript.Block.bare ss = ProcScript.Block.bare body) ∧ u.Faces ws ds :=
  Block.ends_bind (Outcome.Ends.map (hb.2.expect_kind.imp fun _ _ hu => ⟨⟨_, _, rfl, hb.1⟩, hu⟩))

theorem Block.Gives.ifThen (hv : v.bare = e.bare)
    (hb : (r.block [.kwElse, .kwEnd]).Gives body (.kind .kwEnd :: ws) ds) :
    (r.branches v start).Gives fun s u => s.bare = (Stmt.ifThen e body span).bare ∧
      u.Faces ws ds := by
  refine Block.ends_bind ?_
  rw [hb.2.eat?_eq_none (by decide)]
  refine Outcome.Ends.map (hb.2.expect_kind.imp fun _ u hu => ?_)
  exact ⟨by simp only [Stmt.bare, hv, hb.1], hu⟩

/-- What is read of an `if` behind its `else`. -/
theorem Block.Gives.behindElse {vs : List Word}
    (hb : (r.block [.kwElse, .kwEnd]).Gives body (.kind .kwElse :: vs) ds)
    (hk : ∀ (ss : List Stmt) (s : Reader), ProcScript.Block.bare ss = ProcScript.Block.bare body →
      s.Faces vs ds → (s.closed (Stmt.ifElse v ss) start).Ends done lost) :
    (r.branches v start).Ends done lost := by
  obtain ⟨s, heq, hs⟩ := hb.2.eat?
  refine Block.ends_bind ?_
  rw [heq]
  exact (hk _ s.val hb.1 hs).past s.property

theorem Block.Gives.ifElse {vs : List Word} {es : List Diagnostic} (hv : v.bare = e.bare)
    (hb : (r.block [.kwElse, .kwEnd]).Gives body (.kind .kwElse :: vs) ds)
    (ho : ∀ s : Reader, s.Faces vs ds → (s.block [.kwEnd]).Gives other (.kind .kwEnd :: ws) es) :
    (r.branches v start).Gives fun s u => s.bare = (Stmt.ifElse e body other span).bare ∧
      u.Faces ws es := by
  refine hb.behindElse fun bs s hbs hs => (ho s hs).closed.imp ?_
  rintro _ u ⟨⟨ss, x, rfl, hss⟩, hu⟩
  exact ⟨by simp only [Stmt.bare, hv, hbs, hss], hu⟩

theorem Block.Gives.whileDo (hv : v.bare = e.bare)
    (hb : (r.block [.kwEnd]).Gives body (.kind .kwEnd :: ws) ds) :
    (r.closed (Stmt.whileDo v) start).Gives fun s u => s.bare = (Stmt.whileDo e body span).bare ∧
      u.Faces ws ds := by
  refine hb.closed.imp ?_
  rintro _ u ⟨⟨ss, x, rfl, hss⟩, hu⟩
  exact ⟨by simp only [Stmt.bare, hv, hss], hu⟩

theorem Faces.ifThen (he : e.Nested) (hbody : GivesBlock body ds) (h : r.Faces (e.words ++
      .kind .kwThen :: (ProcScript.Block.words body ++ .kind .kwEnd :: ws)) ds) :
    (r.ifStmt start).Gives fun v s => v.bare = (Stmt.ifThen e body span).bare ∧
      s.Faces ws ds :=
  h.ifStmt he fun _ _ hv hs =>
    Block.Gives.ifThen hv (hbody (closes_end [.kwElse, .kwEnd] (by decide) (by decide)) hs)

theorem Faces.ifElse (he : e.Nested) (hbody : GivesBlock body ds) (hother : GivesBlock other ds)
    (h : r.Faces (e.words ++ .kind .kwThen :: (ProcScript.Block.words body ++
      .kind .kwElse :: (ProcScript.Block.words other ++ .kind .kwEnd :: ws))) ds) :
    (r.ifStmt start).Gives fun v s => v.bare = (Stmt.ifElse e body other span).bare ∧
      s.Faces ws ds :=
  h.ifStmt he fun _ _ hv hs => Block.Gives.ifElse hv (hbody closes_else hs) fun _ hs =>
    hother (closes_end [.kwEnd] (by decide) (by decide)) hs

theorem Faces.whileDo (he : e.Nested) (hbody : GivesBlock body ds) (h : r.Faces (e.words ++
      .kind .kwDo :: (ProcScript.Block.words body ++ .kind .kwEnd :: ws)) ds) :
    (r.whileStmt start).Gives fun v s => v.bare = (Stmt.whileDo e body span).bare ∧
      s.Faces ws ds :=
  h.whileStmt he fun _ _ hv hs =>
    Block.Gives.whileDo hv (hbody (closes_end [.kwEnd] (by decide) (by decide)) hs)

end

/-- A reader that faces a statement reads it behind its first token. -/
def GivesStmt (r : Reader) (st : Stmt) (ws : List Word) (ds : List Diagnostic) : Prop :=
  ∃ t s hlt, r.next? = some (t, ⟨s, hlt⟩) ∧ t.kind ∉ [.kwDef, .kwElse, .kwEnd] ∧
    (s.stmt t).Gives fun v u => v.bare = st.bare ∧ u.Faces ws ds

theorem Faces.givesStmt {st : Stmt} {vs : List Word} (h : r.Faces (w :: vs) ds)
    (hw : w.tokenKind = k) (hk : k ∉ [.kwDef, .kwElse, .kwEnd])
    (hst : ∀ (t : Token) (s : Reader), t.word = w → t.kind = k → s.Faces vs ds →
      (s.stmt t).Gives fun v u => v.bare = st.bare ∧ u.Faces ws ds) :
    r.GivesStmt st ws ds := by
  obtain ⟨t, s, hlt, hn, heq, -, hs⟩ := h.next?
  have htk : t.kind = k := (Token.kind_of_word heq).trans hw
  exact ⟨t, s, hlt, hn, htk ▸ hk, hst t s heq htk hs⟩

mutual

theorem Faces.stmt : ∀ (st : Stmt), st.Nested → ∀ {r : Reader} {ws : List Word},
    r.Faces (st.words ++ ws) ds → r.GivesStmt st ws ds
  | .varDef name a none span, hst, r, ws, h => by
      refine h.givesStmt rfl (by decide) fun t s _ hk hs => ?_
      rw [Reader.stmt]
      simp only [hk]
      exact hs.varDef
  | .varDef name a (some e) span, hst, r, ws, h => by
      simp only [Stmt.words, List.append_assoc, List.cons_append, List.nil_append] at h
      refine h.givesStmt rfl (by decide) fun t s _ hk hs => ?_
      rw [Reader.stmt]
      simp only [hk]
      exact hs.varDef_init (Stmt.nested_varDef.mp hst e rfl)
  | .ret none span, hst, r, ws, h => by
      refine h.givesStmt rfl (by decide) fun t s _ hk hs => ?_
      rw [Reader.stmt]
      simp only [hk]
      exact hs.returnStmt
  | .ret (some e) span, hst, r, ws, h => by
      simp only [Stmt.words, List.append_assoc, List.cons_append, List.nil_append] at h
      refine h.givesStmt rfl (by decide) fun t s _ hk hs => ?_
      rw [Reader.stmt]
      simp only [hk]
      exact hs.returnStmt_value (Stmt.nested_ret.mp hst e rfl)
  | .call callee es span, hst, r, ws, h => by
      simp only [Stmt.words, List.append_assoc, List.cons_append, List.nil_append] at h
      refine h.givesStmt (k := .identifier) rfl (by decide) fun t s hw hk hs => ?_
      have hl : t.lexeme = callee := Token.lexeme_of_word hw
      rw [Reader.stmt, ← hl]
      simp only [hk]
      exact hs.call (Stmt.nested_call.mp hst)
  | .assign target e span, hst, r, ws, h => by
      simp only [Stmt.words, List.append_assoc, List.cons_append, List.nil_append] at h
      refine h.givesStmt (k := .identifier) rfl (by decide) fun t s hw hk hs => ?_
      have hl : t.lexeme = target := Token.lexeme_of_word hw
      rw [Reader.stmt, ← hl]
      simp only [hk]
      exact hs.assign (Stmt.nested_assign.mp hst)
  | .ifThen e body span, hst, r, ws, h => by
      obtain ⟨he, hbody⟩ := Stmt.nested_ifThen.mp hst
      simp only [Stmt.words, List.append_assoc, List.cons_append, List.nil_append] at h
      refine h.givesStmt rfl (by decide) fun t s _ hk hs => ?_
      rw [Reader.stmt]
      simp only [hk]
      exact hs.ifThen he (Faces.block body hbody)
  | .ifElse e body other span, hst, r, ws, h => by
      obtain ⟨he, hbody, hother⟩ := Stmt.nested_ifElse.mp hst
      simp only [Stmt.words, List.append_assoc, List.cons_append, List.nil_append] at h
      refine h.givesStmt rfl (by decide) fun t s _ hk hs => ?_
      rw [Reader.stmt]
      simp only [hk]
      exact hs.ifElse he (Faces.block body hbody) (Faces.block other hother)
  | .whileDo e body span, hst, r, ws, h => by
      obtain ⟨he, hbody⟩ := Stmt.nested_whileDo.mp hst
      simp only [Stmt.words, List.append_assoc, List.cons_append, List.nil_append] at h
      refine h.givesStmt rfl (by decide) fun t s _ hk hs => ?_
      rw [Reader.stmt]
      simp only [hk]
      exact hs.whileDo he (Faces.block body hbody)

theorem Faces.block : ∀ (ss : List Stmt), ProcScript.Block.Nested ss → GivesBlock ss ds
  | [], hss, closers, r, ws, hc, h => by
      obtain ⟨hsub, k, hk, hhead⟩ := hc
      obtain ⟨vs, rfl⟩ := List.head?_eq_some_iff.mp hhead
      obtain ⟨t, s, hlt, hn, heq, -, hs⟩ := h.next?
      have hkind : t.kind = k := Token.kind_of_word heq
      rw [Reader.block, hn]
      simp only [hkind, hk, or_true, if_true]
      exact ⟨rfl, h⟩
  | st :: ss, hss, closers, r, ws, hc, h => by
      obtain ⟨hst, hss⟩ := ProcScript.Block.nested_cons.mp hss
      simp only [ProcScript.Block.words, List.append_assoc] at h
      obtain ⟨t, s, hlt, hn, hk, hg⟩ := Faces.stmt st hst h
      obtain ⟨v, s', hlt', heq, hv, hs'⟩ := Outcome.gives_iff.mp hg
      have hb := Faces.block ss hss hc hs'
      -- No statement starts with a kind at which a block ends.
      have hnot : ¬(t.kind = .kwDef ∨ t.kind ∈ closers) := by
        rintro (hd | hm)
        · exact hk (by rw [hd]; decide)
        · exact hk (List.mem_cons_of_mem _ (hc.1 hm))
      rw [Reader.block, hn]
      simp only [if_neg hnot, heq]
      exact ⟨by simp only [Block.mono, Block.cons, ProcScript.Block.bare, hv, hb.1], hb.2⟩

end

/-! ### Scripts -/

/-- A procedure is read as what is behind its `is`. -/
theorem Faces.procedure_body {start : Span} {p : Procedure} {done : Procedure → Reader → Prop}
    {lost : Reader → Prop} (h : r.Faces (p.header ++ ws) ds)
    (hk : ∀ (make : List Stmt → Span → Procedure) (s : Reader),
      (∀ ss x, ProcScript.Block.bare ss = ProcScript.Block.bare p.body →
        (make ss x).bare = p.bare) →
      s.Faces ws ds → (s.closed make start).Ends done lost) :
    (r.procedure start).Ends done lost := by
  simp only [Procedure.header, List.cons_append, List.append_assoc, List.nil_append] at h
  rw [Reader.procedure]
  refine Outcome.Ends.bind (h.expect_name.ends lost) fun name s _ hs => ?_
  obtain ⟨hn, hs⟩ := hs
  refine Outcome.Ends.bind (hs.expect_kind.ends lost) fun _ s _ hs => ?_
  refine Outcome.Ends.bind (hs.params.ends lost) fun params s _ hs => ?_
  obtain ⟨hps, hs⟩ := hs
  refine Outcome.Ends.bind (hs.expect_kind.ends lost) fun _ s _ hs => ?_
  refine Outcome.Ends.bind (hs.typeName.ends lost) fun returns s _ hs => ?_
  obtain ⟨ht, hs⟩ := hs
  refine Outcome.Ends.bind (hs.expect_kind.ends lost) fun _ s _ hs => ?_
  refine hk (fun body x => ⟨name.lexeme, params, returns, body, x⟩) s (fun ss x hss => ?_) hs
  simp only [Procedure.bare, hn, hps, ht, hss]

theorem Faces.procedure {start : Span} {p : Procedure} (hp : ProcScript.Block.Nested p.body)
    (h : r.Faces (p.words.tail ++ ws) ds) :
    (r.procedure start).Gives fun q s => q.bare = p.bare ∧ s.Faces ws ds := by
  rw [p.words_eq, List.tail_cons, List.append_assoc, List.append_assoc] at h
  refine h.procedure_body fun make s hmake hs => ?_
  have hb := Faces.block p.body hp (closes_end [.kwEnd] (by decide) (by decide)) hs
  refine Outcome.Gives.imp hb.closed ?_
  rintro _ u ⟨⟨ss, x, rfl, hss⟩, hu⟩
  exact ⟨hmake ss x hss, hu⟩

/-- A procedure that is read, and those behind it. -/
theorem procedures_of_ok {t : Token} {p : Procedure} {u : Reader}
    {hlt : s.rest.length < r.rest.length} {h : u.rest.length < s.rest.length}
    (hn : r.next? = some (t, ⟨s, hlt⟩)) (hk : t.kind = .kwDef)
    (hp : s.procedure t.span = .ok p u h) :
    r.procedures = (p :: u.procedures.1, u.procedures.2) := by
  rw [procedures.eq_def r]
  simp only [hn, hk, if_true, hp]

/-- What is read from the words of procedures on is they and what is read behind them. -/
theorem Faces.leads_procedures {ps : List Procedure}
    (hps : ∀ p ∈ ps, ProcScript.Block.Nested p.body) {r : Reader}
    (h : r.Faces (ps.flatMap Procedure.words ++ ws) ds) :
    ∃ (s : Reader) (qs : List Procedure),
      r.procedures = (qs ++ s.procedures.1, s.procedures.2) ∧
      qs.map Procedure.bare = ps.map Procedure.bare ∧ s.Faces ws ds := by
  induction ps generalizing r with
  | nil => exact ⟨r, [], rfl, rfl, h⟩
  | cons p ps ih =>
      have hwords : p.words = .kind .kwDef :: p.words.tail := rfl
      rw [List.flatMap_cons, hwords, List.append_assoc, List.cons_append] at h
      obtain ⟨t, s, hlt, hn, hw, -, hs⟩ := h.next?
      have hk : t.kind = .kwDef := Token.kind_of_word hw
      have hg : (s.procedure t.span).Gives fun q s =>
          q.bare = p.bare ∧ s.Faces (ps.flatMap Procedure.words ++ ws) ds :=
        hs.procedure (hps p List.mem_cons_self)
      obtain ⟨q, u, hu, hread, hq, hfaces⟩ := Outcome.gives_iff.mp hg
      obtain ⟨v, qs, hrest, hqs, hv⟩ := ih (fun p h => hps p (List.mem_cons_of_mem _ h)) hfaces
      refine ⟨v, q :: qs, ?_, by rw [List.map_cons, List.map_cons, hq, hqs], hv⟩
      rw [procedures_of_ok hn hk hread, hrest]
      rfl

theorem Faces.procedures {ps : List Procedure} (hps : ∀ p ∈ ps, ProcScript.Block.Nested p.body)
    {r : Reader} (h : r.Faces (ps.flatMap Procedure.words) ds) :
    r.procedures.1.map Procedure.bare = ps.map Procedure.bare ∧ r.procedures.2.found = ds := by
  rw [← List.append_nil (ps.flatMap Procedure.words)] at h
  obtain ⟨s, qs, hread, hqs, hs⟩ := h.leads_procedures hps
  have hend : s.next? = none := next?_eq_none_iff.mpr (List.map_eq_nil_iff.mp hs.words)
  rw [hread, Reader.procedures, hend, List.append_nil]
  exact ⟨hqs, hs.found⟩

end Reader

/-- **The words of a nested script, read, are that script.**  Tokens with the words of a nested
script and with every literal in range are read without a diagnostic, and what is read has the
procedures of that script. -/
theorem Script.ofTokens_of_words {s : Script} (hs : s.Nested) {ts : List Token}
    (hw : (ts.takeWhile fun t => t.kind ≠ .eof).map Token.word = s.words)
    (hr : ∀ t ∈ ts.takeWhile fun t => t.kind ≠ .eof, t.Readable) :
    (Script.ofTokens ts).1.procedures.map Procedure.bare = s.procedures.map Procedure.bare ∧
      (Script.ofTokens ts).2 = [] :=
  Reader.Faces.procedures hs ⟨hw, hr, rfl⟩

end ProcScript
