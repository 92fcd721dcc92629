import ProcScript.Proofs.Syntax.Grammar
import ProcScript.Proofs.Syntax.Recovery
import ProcScript.Proofs.Syntax.Rereading

/-!
# Syntax — acceptance

**The reader accepts the sentences of the grammar and nothing else**
(`Script.ofTokens_eq_nil_iff`).  What it accepts it keeps, and a tree is a sentence.  For the
converse a sentence has to be given a tree with its words that the reader would read: the
grammar leaves open how operators are grouped, and `Expr.join` groups the words of two nested
expressions and of an operator between them anew, one operand after the other.
-/

namespace ProcScript

/-! ### Grouping -/

namespace Expr

/-- An operator and one more operand behind an expression, as deep in it as they hold. -/
def attach (op : BinaryOp) (right : Expr) : Expr → Expr
  | .binary op' a b id span =>
      if op'.level < op.level then .binary op' a (attach op right b) id span
      else .binary op (.binary op' a b id span) right 0 .none
  | left => .binary op left right 0 .none

/-- An operator and the operands of `right`, one after the other, behind `left`. -/
def join : BinaryOp → Expr → Expr → Expr
  | op, left, .binary op' a b _ _ => join op' (join op left a) b
  | op, left, right               => attach op right left

/-- An operator before the first operand of an expression. -/
def lead (op : UnaryOp) : Expr → Expr
  | .binary op' a b id span => .binary op' (lead op a) b id span
  | e                       => .unary op e 0 .none

theorem words_attach (op : BinaryOp) (right e : Expr) :
    (attach op right e).words = e.words ++ .kind op.kind :: right.words := by
  induction e with
  | binary op' a b id span iha ihb =>
      rw [attach]
      split
      · simp only [words, ihb, List.append_assoc, List.cons_append]
      · rfl
  | _ => rfl

theorem level_attach (op : BinaryOp) (right e : Expr) :
    (attach op right e).level = min e.level op.level := by
  have hop := op.level_lt_tightest
  cases e with
  | binary op' a b id span =>
      rw [attach]
      split <;> simp only [level] <;> omega
  | _ =>
      simp only [attach, level]
      omega

theorem nested_attach {op : BinaryOp} {right e : Expr} (he : e.Nested) (hr : right.Nested)
    (hl : right.level = Reader.tightest) : (attach op right e).Nested := by
  have hop := op.level_lt_tightest
  induction e with
  | binary op' a b id span iha ihb =>
      obtain ⟨ha, hb, hna, hnb⟩ := he
      rw [attach]
      split
      · -- It goes into the right operand, which stays above `op'` since both it and `op` are.
        refine ⟨ha, ?_, hna, ihb hnb⟩
        rw [level_attach]
        exact Nat.lt_min.mpr ⟨hb, ‹_›⟩
      · exact ⟨Nat.le_of_not_lt ‹_›, hl ▸ hop, ⟨ha, hb, hna, hnb⟩, hr⟩
  | _ => exact ⟨Nat.le_of_lt hop, hl ▸ hop, he, hr⟩

theorem words_join (op : BinaryOp) (left right : Expr) :
    (join op left right).words = left.words ++ .kind op.kind :: right.words := by
  induction right generalizing op left with
  | binary op' a b id span iha ihb =>
      rw [join, ihb, iha]
      simp only [words, List.append_assoc, List.cons_append]
  | _ => exact words_attach op _ left

theorem nested_join {op : BinaryOp} {left right : Expr} (hl : left.Nested) (hr : right.Nested) :
    (join op left right).Nested := by
  induction right generalizing op left with
  | binary op' a b id span iha ihb => exact ihb (iha hl hr.2.2.1) hr.2.2.2
  | _ => exact nested_attach hl hr rfl

theorem words_lead (op : UnaryOp) (e : Expr) : (lead op e).words = .kind op.kind :: e.words := by
  induction e with
  | binary op' a b id span iha ihb => simp only [lead, words, iha, List.cons_append]
  | _ => rfl

theorem nested_lead {op : UnaryOp} {e : Expr} (he : e.Nested) :
    (lead op e).Nested ∧ (lead op e).level = e.level := by
  induction e with
  | binary op' a b id span iha ihb =>
      obtain ⟨ha, hb, hna, hnb⟩ := he
      -- The first operand keeps its level, so it still holds tightly enough.
      exact ⟨⟨(iha hna).2 ▸ ha, hb, (iha hna).1, hnb⟩, rfl⟩
  | _ => exact ⟨⟨rfl, he⟩, rfl⟩

end Expr

/-! ### Sentences have trees -/

namespace Grammar

variable {ks : List Kind} {ts : List Token}

/-- A sentence of `exp` has a nested tree. -/
theorem Exp.tree (h : Exp ks) (hts : ts.map Token.kind = ks) :
    ∃ e : Expr, e.Nested ∧ e.words = ts.map Token.word := by
  induction h generalizing ts with
  | int =>
      obtain ⟨t, rfl, hk⟩ := List.map_eq_singleton_iff.mp hts
      refine ⟨.int ((Text.int32? t.lexeme).getD 0) 0 .none, trivial, ?_⟩
      rw [Expr.words, List.map_singleton, Token.word_of_intLiteral hk]
  | bool hk =>
      obtain ⟨t, rfl, ht⟩ := List.map_eq_singleton_iff.mp hts
      rcases hk with rfl | rfl
      · refine ⟨.bool true 0 .none, trivial, ?_⟩
        rw [Expr.words, List.map_singleton, Token.word_of_kind ht (by decide), if_pos rfl]
      · refine ⟨.bool false 0 .none, trivial, ?_⟩
        rw [Expr.words, List.map_singleton, Token.word_of_kind ht (by decide)]
        rfl
  | name =>
      obtain ⟨t, rfl, hk⟩ := List.map_eq_singleton_iff.mp hts
      refine ⟨.var t.lexeme 0 .none, trivial, ?_⟩
      rw [Expr.words, List.map_singleton, Token.word_of_identifier hk]
  | paren _ ih =>
      obtain ⟨t, ts₁, rfl, hk, h₁⟩ := List.map_eq_cons_iff.mp hts
      obtain ⟨ts₂, ts₃, rfl, h₂, h₃⟩ := List.map_eq_append_iff.mp h₁
      obtain ⟨t', rfl, hk'⟩ := List.map_eq_singleton_iff.mp h₃
      obtain ⟨e, he, hw⟩ := ih h₂
      refine ⟨.paren e 0 .none, he, ?_⟩
      simp only [Expr.words, hw, List.map_cons, List.map_append, List.map_nil,
        Token.word_of_kind hk (by decide), Token.word_of_kind hk' (by decide)]
  | binary op _ _ ih ih' =>
      obtain ⟨ts₁, ts₂, rfl, h₁, h₂⟩ := List.map_eq_append_iff.mp hts
      obtain ⟨t, ts₃, rfl, hk, h₃⟩ := List.map_eq_cons_iff.mp h₂
      obtain ⟨e, he, hw⟩ := ih h₁
      obtain ⟨e', he', hw'⟩ := ih' h₃
      refine ⟨.join op e e', Expr.nested_join he he', ?_⟩
      rw [Expr.words_join, hw, hw', List.map_append, List.map_cons,
        Token.word_of_kind hk op.isFixed_kind]
  | unary op _ ih =>
      obtain ⟨t, ts₁, rfl, hk, h₁⟩ := List.map_eq_cons_iff.mp hts
      obtain ⟨e, he, hw⟩ := ih h₁
      refine ⟨.lead op e, (Expr.nested_lead he).1, ?_⟩
      rw [Expr.words_lead, hw, List.map_cons, Token.word_of_kind hk op.isFixed_kind]

/-- What stands between commas has trees if each has one. -/
theorem Separated.trees {α : Type} {P : List Kind → Prop} {good : α → Prop} {w : α → List Word}
    (hP : ∀ ts : List Token, P (ts.map Token.kind) → ∃ a, good a ∧ w a = ts.map Token.word)
    (h : Separated P ks) (hts : ts.map Token.kind = ks) :
    ∃ as : List α, as ≠ [] ∧ (∀ a ∈ as, good a) ∧
      Word.separated (as.map w) = ts.map Token.word := by
  induction h generalizing ts with
  | one h =>
      subst hts
      obtain ⟨a, ha, hw⟩ := hP ts h
      exact ⟨[a], List.cons_ne_nil a [], by simpa using ha, hw⟩
  | more h _ ih =>
      obtain ⟨ts₁, ts₂, rfl, rfl, h₂⟩ := List.map_eq_append_iff.mp hts
      obtain ⟨t, ts₃, rfl, hk, h₃⟩ := List.map_eq_cons_iff.mp h₂
      obtain ⟨a, ha, hw⟩ := hP ts₁ h
      obtain ⟨as, hne, has, hws⟩ := ih h₃
      refine ⟨a :: as, List.cons_ne_nil a as, by simpa using ⟨ha, has⟩, ?_⟩
      rw [List.map_cons, Word.separated_cons (by simpa using hne), hw, hws, List.map_append,
        List.map_cons, Token.word_of_kind hk (by decide)]

theorem Listed.trees {α : Type} {P : List Kind → Prop} {good : α → Prop} {w : α → List Word}
    (hP : ∀ ts : List Token, P (ts.map Token.kind) → ∃ a, good a ∧ w a = ts.map Token.word)
    (h : Listed P ks) (hts : ts.map Token.kind = ks) :
    ∃ as : List α, (∀ a ∈ as, good a) ∧ Word.separated (as.map w) = ts.map Token.word := by
  rcases h with rfl | h
  · obtain rfl := List.map_eq_nil_iff.mp hts
    exact ⟨[], by simp, rfl⟩
  · obtain ⟨as, -, has, hw⟩ := h.trees hP hts
    exact ⟨as, has, hw⟩

mutual

/-- A sentence of `stmt` has a nested tree. -/
theorem Statement.tree : ∀ {ks : List Kind}, Statement ks → ∀ {ts : List Token},
    ts.map Token.kind = ks → ∃ s : Stmt, s.Nested ∧ s.words = ts.map Token.word
  | _, .varDef, ts, hts => by
      simp only [List.map_eq_cons_iff, List.map_eq_nil_iff] at hts
      obtain ⟨t₁, _, rfl, h₁, t₂, _, rfl, h₂, t₃, _, rfl, h₃, t₄, _, rfl, h₄, t₅, _, rfl, h₅,
        rfl⟩ := hts
      refine ⟨.varDef t₂.lexeme ⟨t₄.lexeme, .none⟩ none .none,
        Stmt.nested_varDef.mpr fun _ h => (by cases h), ?_⟩
      simp [Stmt.words, Token.word, h₁, h₂, h₃, h₄, h₅]
  | _, .varInit h, ts, hts => by
      simp only [List.map_eq_cons_iff, List.map_eq_append_iff, List.map_eq_nil_iff] at hts
      obtain ⟨t₁, _, rfl, h₁, t₂, _, rfl, h₂, t₃, _, rfl, h₃, t₄, _, rfl, h₄, t₅, _, rfl, h₅,
        ts₁, _, rfl, hts₁, t₆, _, rfl, h₆, rfl⟩ := hts
      obtain ⟨e, he, hw⟩ := h.tree hts₁
      refine ⟨.varDef t₂.lexeme ⟨t₄.lexeme, .none⟩ (some e) .none,
        Stmt.nested_varDef.mpr (by simpa using he), ?_⟩
      simp [Stmt.words, Token.word, hw, h₁, h₂, h₃, h₄, h₅, h₆]
  | _, .ret, ts, hts => by
      simp only [List.map_eq_cons_iff, List.map_eq_nil_iff] at hts
      obtain ⟨t₁, _, rfl, h₁, t₂, _, rfl, h₂, rfl⟩ := hts
      refine ⟨.ret none .none, Stmt.nested_ret.mpr fun _ h => (by cases h), ?_⟩
      simp [Stmt.words, Token.word, h₁, h₂]
  | _, .retValue h, ts, hts => by
      simp only [List.map_eq_cons_iff, List.map_eq_append_iff, List.map_eq_nil_iff] at hts
      obtain ⟨t₁, _, rfl, h₁, ts₁, _, rfl, hts₁, t₂, _, rfl, h₂, rfl⟩ := hts
      obtain ⟨e, he, hw⟩ := h.tree hts₁
      refine ⟨.ret (some e) .none, Stmt.nested_ret.mpr (by simpa using he), ?_⟩
      simp [Stmt.words, Token.word, hw, h₁, h₂]
  | _, .call h, ts, hts => by
      simp only [List.map_eq_cons_iff, List.map_eq_append_iff, List.map_eq_nil_iff] at hts
      obtain ⟨t₁, _, rfl, h₁, t₂, _, rfl, h₂, ts₁, _, rfl, hts₁, t₃, _, rfl, h₃, t₄, _, rfl, h₄,
        rfl⟩ := hts
      obtain ⟨es, hes, hw⟩ := h.trees (fun ts h => Exp.tree h rfl) hts₁
      refine ⟨.call t₁.lexeme es .none, Stmt.nested_call.mpr hes, ?_⟩
      simp [Stmt.words, Token.word, hw, h₁, h₂, h₃, h₄]
  | _, .assign h, ts, hts => by
      simp only [List.map_eq_cons_iff, List.map_eq_append_iff, List.map_eq_nil_iff] at hts
      obtain ⟨t₁, _, rfl, h₁, t₂, _, rfl, h₂, ts₁, _, rfl, hts₁, t₃, _, rfl, h₃, rfl⟩ := hts
      obtain ⟨e, he, hw⟩ := h.tree hts₁
      refine ⟨.assign t₁.lexeme e .none, Stmt.nested_assign.mpr he, ?_⟩
      simp [Stmt.words, Token.word, hw, h₁, h₂, h₃]
  | _, .ifThen h hb, ts, hts => by
      simp only [List.map_eq_cons_iff, List.map_eq_append_iff, List.map_eq_nil_iff] at hts
      obtain ⟨t₁, _, rfl, h₁, ts₁, _, rfl, hts₁, t₂, _, rfl, h₂, ts₂, _, rfl, hts₂, t₃, _, rfl, h₃,
        rfl⟩ := hts
      obtain ⟨e, he, hw⟩ := h.tree hts₁
      obtain ⟨body, hbody, hwb⟩ := hb.tree hts₂
      refine ⟨.ifThen e body .none, Stmt.nested_ifThen.mpr ⟨he, hbody⟩, ?_⟩
      simp [Stmt.words, Token.word, hw, hwb, h₁, h₂, h₃]
  | _, .ifElse h hb ho, ts, hts => by
      simp only [List.map_eq_cons_iff, List.map_eq_append_iff, List.map_eq_nil_iff] at hts
      obtain ⟨t₁, _, rfl, h₁, ts₁, _, rfl, hts₁, t₂, _, rfl, h₂, ts₂, _, rfl, hts₂, t₃, _, rfl, h₃,
        ts₃, _, rfl, hts₃, t₄, _, rfl, h₄, rfl⟩ := hts
      obtain ⟨e, he, hw⟩ := h.tree hts₁
      obtain ⟨body, hbody, hwb⟩ := hb.tree hts₂
      obtain ⟨other, hother, hwo⟩ := ho.tree hts₃
      refine ⟨.ifElse e body other .none, Stmt.nested_ifElse.mpr ⟨he, hbody, hother⟩, ?_⟩
      simp [Stmt.words, Token.word, hw, hwb, hwo, h₁, h₂, h₃, h₄]
  | _, .whileDo h hb, ts, hts => by
      simp only [List.map_eq_cons_iff, List.map_eq_append_iff, List.map_eq_nil_iff] at hts
      obtain ⟨t₁, _, rfl, h₁, ts₁, _, rfl, hts₁, t₂, _, rfl, h₂, ts₂, _, rfl, hts₂, t₃, _, rfl, h₃,
        rfl⟩ := hts
      obtain ⟨e, he, hw⟩ := h.tree hts₁
      obtain ⟨body, hbody, hwb⟩ := hb.tree hts₂
      refine ⟨.whileDo e body .none, Stmt.nested_whileDo.mpr ⟨he, hbody⟩, ?_⟩
      simp [Stmt.words, Token.word, hw, hwb, h₁, h₂, h₃]

/-- A sentence of `stmt*` has nested trees. -/
theorem Statements.tree : ∀ {ks : List Kind}, Statements ks → ∀ {ts : List Token},
    ts.map Token.kind = ks →
      ∃ ss : List Stmt, Block.Nested ss ∧ Block.words ss = ts.map Token.word
  | _, .nil, ts, hts => by
      obtain rfl := List.map_eq_nil_iff.mp hts
      exact ⟨[], by simp [Block.Nested, Block.preorder], rfl⟩
  | _, .cons h h', ts, hts => by
      obtain ⟨ts₁, ts₂, rfl, hts₁, hts₂⟩ := List.map_eq_append_iff.mp hts
      obtain ⟨s, hs, hw⟩ := h.tree hts₁
      obtain ⟨ss, hss, hws⟩ := h'.tree hts₂
      refine ⟨s :: ss, Block.nested_cons.mpr ⟨hs, hss⟩, ?_⟩
      rw [Block.words, hw, hws, List.map_append]

end

theorem ParamDef.tree (h : ParamDef (ts.map Token.kind)) :
    ∃ q : Param, True ∧ q.words = ts.map Token.word := by
  simp only [ParamDef, List.map_eq_cons_iff, List.map_eq_nil_iff] at h
  obtain ⟨t₁, _, rfl, h₁, t₂, _, rfl, h₂, t₃, _, rfl, h₃, rfl⟩ := h
  refine ⟨⟨t₁.lexeme, ⟨t₃.lexeme, .none⟩, .none⟩, trivial, ?_⟩
  simp [Param.words, Token.word, h₁, h₂, h₃]

/-- A sentence of `procDef` has a nested tree. -/
theorem ProcDef.tree (h : ProcDef ks) (hts : ts.map Token.kind = ks) :
    ∃ p : Procedure, Block.Nested p.body ∧ p.words = ts.map Token.word := by
  obtain ⟨hq, hb⟩ := h
  simp only [List.map_eq_cons_iff, List.map_eq_append_iff, List.map_eq_nil_iff] at hts
  obtain ⟨t₁, _, rfl, h₁, t₂, _, rfl, h₂, t₃, _, rfl, h₃, ts₁, _, rfl, hts₁, t₄, _, rfl, h₄,
    t₅, _, rfl, h₅, t₆, _, rfl, h₆, t₇, _, rfl, h₇, ts₂, _, rfl, hts₂, t₈, _, rfl, h₈, rfl⟩ := hts
  obtain ⟨params, -, hwq⟩ := hq.trees (fun _ => ParamDef.tree) hts₁
  obtain ⟨body, hbody, hwb⟩ := hb.tree hts₂
  refine ⟨⟨t₂.lexeme, params, ⟨t₆.lexeme, .none⟩, body, .none⟩, hbody, ?_⟩
  simp [Procedure.words, Token.word, hwq, hwb, h₁, h₂, h₃, h₄, h₅, h₆, h₇, h₈]

/-- A sentence has a nested tree. -/
theorem Sentence.tree (h : Sentence ks) (hts : ts.map Token.kind = ks) :
    ∃ s : Script, s.Nested ∧ s.words = ts.map Token.word := by
  induction h generalizing ts with
  | nil =>
      obtain rfl := List.map_eq_nil_iff.mp hts
      exact ⟨⟨"", [], .none⟩, by simp [Script.Nested], rfl⟩
  | cons h _ ih =>
      obtain ⟨ts₁, ts₂, rfl, hts₁, hts₂⟩ := List.map_eq_append_iff.mp hts
      obtain ⟨p, hp, hw⟩ := h.tree hts₁
      obtain ⟨s, hs, hws⟩ := ih hts₂
      refine ⟨⟨"", p :: s.procedures, .none⟩, ?_, ?_⟩
      · simpa [Script.Nested] using ⟨hp, hs⟩
      · rw [Script.words] at hws ⊢
        rw [List.flatMap_cons, hw, hws, List.map_append]

end Grammar

/-- **The reader accepts the sentences of the grammar and nothing else.**  Nothing is found wrong
with a list of tokens exactly if those before the first `eof` are a sentence and every integer
literal among them is in range. -/
theorem Script.ofTokens_eq_nil_iff (ts : List Token) :
    let us := ts.takeWhile fun t => t.kind ≠ .eof
    (Script.ofTokens ts).2 = [] ↔
      Grammar.Sentence (us.map Token.kind) ∧ ∀ t ∈ us, t.Readable := by
  intro us
  have hk : Kept (Script.ofTokens ts).1.words us (Script.ofTokens ts).2 := Script.trail_ofTokens ts
  constructor
  · intro hd
    -- Nothing was found, so every token is kept, and what is kept is a sentence.
    have hw := hk.whole.mpr (by simp [hd])
    have hs := (Script.ofTokens ts).1.sentence
    rw [hw, Word.kinds, List.map_map] at hs
    have hfun : Word.tokenKind ∘ Token.word = Token.kind := funext Token.tokenKind_word
    rw [hfun] at hs
    exact ⟨hs, hk.readable hd⟩
  · rintro ⟨hs, hr⟩
    obtain ⟨s, hn, hw⟩ := hs.tree rfl
    exact (Script.ofTokens_of_words hn hw.symm hr).2

end ProcScript
