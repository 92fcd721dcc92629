import ProcScript.Proofs.Lexing.Place
import ProcScript.Proofs.Syntax.Words

/-!
# Syntax — phrases and their tokens

A `Phrase` is a node of a tree: a procedure, a parameter, a type, a statement or an expression.
`Phrase.pieces` lists what it is made of, in the order of the grammar: words of its own, the
phrases in it, and, where statements stand in a block, places at which tokens may have been
skipped.  `Piece.Reads ps ts` says that the tokens `ts` are those pieces, all of them and without a
gap.  A word is one token.  A phrase is a stretch of tokens that are its pieces; if the places of
these tokens increase, its span reaches from the start of the first to the end of the last.  What is
skipped in a block is no token that could have ended the block.

If the tokens stand one behind the other (`Token.Ordered`), so do the phrases among the pieces, each
across a stretch of the tokens (`Piece.Reads.stretch`, `Piece.Reads.pairwise`).
-/

namespace ProcScript

/-! ### Phrases -/

/-- A node of a tree. -/
inductive Phrase where
  | procedure (p : Procedure)
  | param (q : Param)
  | typeName (a : TypeName)
  | stmt (s : Stmt)
  | expr (e : Expr)

/-- What a phrase is made of. -/
inductive Piece where
  /-- A token of its own. -/
  | word (w : Word)
  /-- A phrase in it. -/
  | phrase (x : Phrase)
  /-- A place where tokens of other kinds than these may have been skipped. -/
  | skipped (stops : List Kind)

/-- The phrase, if it is one. -/
def Piece.phrase? : Piece → Option Phrase
  | .phrase x => some x
  | _         => none

/-- Phrases with a comma between any two. -/
def Piece.separated : List Phrase → List Piece
  | []           => []
  | [x]          => [.phrase x]
  | x :: y :: zs => .phrase x :: .word (.kind .comma) :: separated (y :: zs)

/-- Phrases with a place to skip tokens at before, between and behind them. -/
def Piece.among (stops : List Kind) : List Phrase → List Piece
  | []      => [.skipped stops]
  | x :: xs => .skipped stops :: .phrase x :: among stops xs

/-- The statements of a block, which ends before one of the kinds. -/
def Piece.block (closers : List Kind) (ss : List Stmt) : List Piece :=
  among (.kwDef :: closers) (ss.map .stmt)

namespace Phrase

def span : Phrase → Span
  | procedure p => p.span
  | param q     => q.span
  | typeName a  => a.span
  | stmt s      => s.span
  | expr e      => e.span

/-- The phrases that a phrase is made of, in the order of the grammar. -/
def children : Phrase → List Phrase
  | procedure p => p.params.map param ++ typeName p.returns :: p.body.map stmt
  | param q => [typeName q.typeName]
  | typeName _ => []
  | stmt (.varDef _ a init _) => typeName a :: init.toList.map expr
  | stmt (.ret value _) => value.toList.map expr
  | stmt (.call _ args _) => args.map expr
  | stmt (.assign _ value _) => [expr value]
  | stmt (.ifThen condition body _) => expr condition :: body.map stmt
  | stmt (.ifElse condition body other _) =>
      expr condition :: (body.map stmt ++ other.map stmt)
  | stmt (.whileDo condition body _) => expr condition :: body.map stmt
  | expr (.binary _ left right _ _) => [expr left, expr right]
  | expr (.unary _ operand _ _) => [expr operand]
  | expr (.paren inner _ _) => [expr inner]
  | expr (.var ..) | expr (.bool ..) | expr (.int ..) => []

/-- All that a phrase is made of, in the order of the grammar. -/
def pieces : Phrase → List Piece
  | procedure p =>
      .word (.kind .kwDef) :: .word (.name p.name) :: .word (.kind .leftParen) ::
        (Piece.separated (p.params.map param) ++
          .word (.kind .rightParen) :: .word (.kind .colon) :: .phrase (typeName p.returns) ::
            .word (.kind .kwIs) :: (Piece.block [.kwEnd] p.body ++ [.word (.kind .kwEnd)]))
  | param q => [.word (.name q.name), .word (.kind .colon), .phrase (typeName q.typeName)]
  | typeName a => [.word (.name a.name)]
  | stmt (.varDef name a none _) =>
      [.word (.kind .kwVar), .word (.name name), .word (.kind .colon), .phrase (typeName a),
        .word (.kind .semicolon)]
  | stmt (.varDef name a (some init) _) =>
      [.word (.kind .kwVar), .word (.name name), .word (.kind .colon), .phrase (typeName a),
        .word (.kind .colonEqual), .phrase (expr init), .word (.kind .semicolon)]
  | stmt (.ret none _) => [.word (.kind .kwReturn), .word (.kind .semicolon)]
  | stmt (.ret (some value) _) =>
      [.word (.kind .kwReturn), .phrase (expr value), .word (.kind .semicolon)]
  | stmt (.call callee args _) =>
      .word (.name callee) :: .word (.kind .leftParen) ::
        (Piece.separated (args.map expr) ++
          [.word (.kind .rightParen), .word (.kind .semicolon)])
  | stmt (.assign target value _) =>
      [.word (.name target), .word (.kind .colonEqual), .phrase (expr value),
        .word (.kind .semicolon)]
  | stmt (.ifThen condition body _) =>
      .word (.kind .kwIf) :: .phrase (expr condition) :: .word (.kind .kwThen) ::
        (Piece.block [.kwElse, .kwEnd] body ++ [.word (.kind .kwEnd)])
  | stmt (.ifElse condition body other _) =>
      .word (.kind .kwIf) :: .phrase (expr condition) :: .word (.kind .kwThen) ::
        (Piece.block [.kwElse, .kwEnd] body ++
          .word (.kind .kwElse) :: (Piece.block [.kwEnd] other ++ [.word (.kind .kwEnd)]))
  | stmt (.whileDo condition body _) =>
      .word (.kind .kwWhile) :: .phrase (expr condition) :: .word (.kind .kwDo) ::
        (Piece.block [.kwEnd] body ++ [.word (.kind .kwEnd)])
  | expr (.var name _ _) => [.word (.name name)]
  | expr (.bool value _ _) => [.word (.kind (if value then .kwTrue else .kwFalse))]
  | expr (.int value _ _) => [.word (.int value)]
  | expr (.binary op left right _ _) =>
      [.phrase (expr left), .word (.kind op.kind), .phrase (expr right)]
  | expr (.unary op operand _ _) => [.word (.kind op.kind), .phrase (expr operand)]
  | expr (.paren inner _ _) =>
      [.word (.kind .leftParen), .phrase (expr inner), .word (.kind .rightParen)]

/-- The kind of the token that ends a procedure or a statement. -/
def closer? : Phrase → Option Kind
  | procedure _ => some .kwEnd
  | stmt (.varDef ..) | stmt (.ret ..) | stmt (.call ..) | stmt (.assign ..) => some .semicolon
  | stmt (.ifThen ..) | stmt (.ifElse ..) | stmt (.whileDo ..) => some .kwEnd
  | param _ | typeName _ | expr _ => none

end Phrase

/-- The procedures of a script, and what was skipped around them. -/
def Script.pieces (s : Script) : List Piece := Piece.among [] (s.procedures.map .procedure)

/-- The phrases of a script: its procedures, and whatever a phrase of it is made of. -/
inductive Script.Has (s : Script) : Phrase → Prop
  | procedure {p : Procedure} (h : p ∈ s.procedures) : Has s (.procedure p)
  | child {x y : Phrase} (h : Has s x) (hy : y ∈ x.children) : Has s y

/-! ### Their children -/

namespace Piece

@[simp] theorem phrases_word (w : Word) (ps : List Piece) :
    (.word w :: ps).filterMap phrase? = ps.filterMap phrase? := rfl

@[simp] theorem phrases_phrase (x : Phrase) (ps : List Piece) :
    (.phrase x :: ps).filterMap phrase? = x :: ps.filterMap phrase? := rfl

@[simp] theorem phrases_skipped (stops : List Kind) (ps : List Piece) :
    (.skipped stops :: ps).filterMap phrase? = ps.filterMap phrase? := rfl

@[simp] theorem phrases_separated (xs : List Phrase) :
    (separated xs).filterMap phrase? = xs := by
  fun_induction separated xs with
  | case1 => rfl
  | case2 x => rfl
  | case3 x y zs ih => rw [phrases_phrase, phrases_word, ih]

@[simp] theorem phrases_among (stops : List Kind) (xs : List Phrase) :
    (among stops xs).filterMap phrase? = xs := by
  induction xs with
  | nil => rfl
  | cons x xs ih => rw [among, phrases_skipped, phrases_phrase, ih]

@[simp] theorem phrases_block (closers : List Kind) (ss : List Stmt) :
    (block closers ss).filterMap phrase? = ss.map .stmt :=
  phrases_among _ _

end Piece

namespace Phrase

/-- The phrases among the pieces are the children. -/
theorem phrases_pieces (x : Phrase) : x.pieces.filterMap Piece.phrase? = x.children := by
  cases x with
  | procedure p => simp [pieces, children]
  | param q => rfl
  | typeName a => rfl
  | expr e => cases e <;> rfl
  | stmt s =>
      cases s with
      | varDef name a init span => cases init <;> rfl
      | ret value span => cases value <;> rfl
      | assign target value span => rfl
      | call | ifThen | ifElse | whileDo => simp [pieces, children]

/-- The closer is the last piece. -/
theorem exists_closer {x : Phrase} {k : Kind} (h : k ∈ x.closer?) :
    ∃ ps, x.pieces = ps ++ [.word (.kind k)] := by
  have hlast : x.pieces.getLast? = some (.word (.kind k)) := by
    cases x with
    | param q => cases h
    | typeName a => cases h
    | expr e => cases h
    | procedure p =>
        obtain rfl := Option.some.inj h
        simp [pieces, List.getLast?_cons]
    | stmt s =>
        cases s with
        | varDef name a init span =>
            obtain rfl := Option.some.inj h
            cases init <;> rfl
        | ret value span =>
            obtain rfl := Option.some.inj h
            cases value <;> rfl
        | assign target value span =>
            obtain rfl := Option.some.inj h
            rfl
        | call | ifThen | ifElse | whileDo =>
            obtain rfl := Option.some.inj h
            simp [pieces, List.getLast?_cons]
  exact ⟨x.pieces.dropLast, (List.dropLast_append_getLast? _ hlast).symm⟩

/-- A phrase has a word of its own. -/
theorem exists_word (x : Phrase) : ∃ w, .word w ∈ x.pieces := by
  cases x with
  | procedure p => exact ⟨_, List.mem_cons_self⟩
  | param q => exact ⟨_, List.mem_cons_self⟩
  | typeName a => exact ⟨_, List.mem_cons_self⟩
  | expr e =>
      cases e with
      | binary op left right id span => exact ⟨_, List.mem_cons_of_mem _ List.mem_cons_self⟩
      | var | bool | int | unary | paren => exact ⟨_, List.mem_cons_self⟩
  | stmt s =>
      cases s with
      | varDef name a init span => cases init <;> exact ⟨_, List.mem_cons_self⟩
      | ret value span => cases value <;> exact ⟨_, List.mem_cons_self⟩
      | call | assign | ifThen | ifElse | whileDo => exact ⟨_, List.mem_cons_self⟩

end Phrase

/-! ### Tokens in order -/

/-- The tokens stand one behind the other, and none of them is empty. -/
structure Token.Ordered (ts : List Token) : Prop where
  nonempty : ∀ t ∈ ts, t.span.lo < t.span.hi
  apart : ts.Pairwise fun t u => t.span.hi ≤ u.span.lo

/-- The starts of the tokens increase, and so do their ends. -/
def Token.Increasing (ts : List Token) : Prop :=
  ts.Pairwise fun t u => t.span.lo < u.span.lo ∧ t.span.hi < u.span.hi

/-- From the start of the first of the tokens to the end of the last. -/
def Span.across : List Token → Span
  | []      => .none
  | t :: ts =>
      ⟨t.span.source, t.span.start, ((t :: ts).getLast (List.cons_ne_nil t ts)).span.stop⟩

namespace Token.Ordered

variable {t u : Token} {ts us vs : List Token}

theorem increasing (h : Ordered ts) : Increasing ts :=
  h.apart.imp_of_mem fun ht hu hle =>
    ⟨Nat.lt_of_lt_of_le (h.nonempty _ ht) hle, Nat.lt_of_le_of_lt hle (h.nonempty _ hu)⟩

theorem left (h : Ordered (us ++ vs)) : Ordered us :=
  ⟨fun t ht => h.nonempty t (List.mem_append_left vs ht), (List.pairwise_append.mp h.apart).1⟩

theorem right (h : Ordered (us ++ vs)) : Ordered vs :=
  ⟨fun t ht => h.nonempty t (List.mem_append_right us ht),
    (List.pairwise_append.mp h.apart).2.1⟩

theorem before (h : Ordered (us ++ vs)) (ht : t ∈ us) (hu : u ∈ vs) : t.span.hi ≤ u.span.lo :=
  (List.pairwise_append.mp h.apart).2.2 t ht u hu

theorem tail (h : Ordered (t :: us)) : Ordered us :=
  ⟨(List.forall_mem_cons.mp h.nonempty).2, h.apart.of_cons⟩

theorem head_before (h : Ordered (t :: us)) (hu : u ∈ us) : t.span.hi ≤ u.span.lo :=
  (List.pairwise_cons.mp h.apart).1 u hu

/-- No token ends behind the last one. -/
theorem hi_le_getLast (h : Ordered us) (hu : u ∈ us) (hne : us ≠ []) :
    u.span.hi ≤ (us.getLast hne).span.hi := by
  induction us with
  | nil => cases hu
  | cons t us ih =>
      cases us with
      | nil =>
          obtain rfl := List.mem_singleton.mp hu
          exact Nat.le_refl _
      | cons v us =>
          have hlast := List.getLast_mem (List.cons_ne_nil v us)
          rw [List.getLast_cons (List.cons_ne_nil v us)]
          rcases List.mem_cons.mp hu with rfl | hu
          · have hle : u.span.hi ≤ ((v :: us).getLast (List.cons_ne_nil v us)).span.lo :=
              h.head_before hlast
            have hlt := h.nonempty _ (List.mem_cons_of_mem u hlast)
            exact Nat.le_trans hle (Nat.le_of_lt hlt)
          · exact ih h.tail hu (List.cons_ne_nil v us)

end Token.Ordered

namespace Span

variable {t : Token} {us vs ws : List Token}

theorem hi_across (hne : us ≠ []) : (across us).hi = (us.getLast hne).span.hi := by
  cases us with
  | nil => exact absurd rfl hne
  | cons t us => rfl

/-- The span reaches across each of the tokens. -/
theorem across_covers (h : Token.Ordered us) (ht : t ∈ us) :
    (across us).lo ≤ t.span.lo ∧ t.span.hi ≤ (across us).hi := by
  have hne := List.ne_nil_of_mem ht
  refine ⟨?_, hi_across hne ▸ h.hi_le_getLast ht hne⟩
  cases us with
  | nil => cases ht
  | cons u us =>
      rcases List.mem_cons.mp ht with rfl | ht
      · exact Nat.le_refl _
      · have hlt := h.nonempty u List.mem_cons_self
        exact Nat.le_trans (Nat.le_of_lt hlt) (h.head_before ht)

/-- It reaches as far as the tokens do. -/
theorem across_ends (h : Token.Ordered us) (hne : us ≠ []) :
    ∃ t ∈ us, ∃ u ∈ us, (across us).lo = t.span.lo ∧ (across us).hi = u.span.hi := by
  refine ⟨us.head hne, List.head_mem hne, us.getLast hne, List.getLast_mem hne, ?_, hi_across hne⟩
  cases us with
  | nil => exact absurd rfl hne
  | cons t us => rfl

/-- What joins the first and the last of them reaches across all. -/
theorem merge_across (h : Token.Increasing (us ++ ws ++ vs)) (hu : us ≠ []) (hv : vs ≠ []) :
    (across us).merge (across vs) = across (us ++ ws ++ vs) := by
  obtain ⟨t, us, rfl⟩ := List.exists_cons_of_ne_nil hu
  obtain ⟨u, vs, rfl⟩ := List.exists_cons_of_ne_nil hv
  have hpair := (List.pairwise_append.mp h).2.2
  have hlo : (across (t :: us)).lo < (across (u :: vs)).lo :=
    (hpair t List.mem_cons_self u List.mem_cons_self).1
  have hhi : (across (t :: us)).hi < (across (u :: vs)).hi :=
    (hpair _ (List.mem_append_left ws (List.getLast_mem hu)) _ (List.getLast_mem hv)).2
  have hstart : (across (t :: us)).start.offset ≤ (across (u :: vs)).start.offset :=
    UInt32.le_iff_toNat_le.mpr (Nat.le_of_lt hlo)
  have hstop : ¬ (across (u :: vs)).stop.offset ≤ (across (t :: us)).stop.offset := fun hle =>
    Nat.not_lt.mpr (UInt32.le_iff_toNat_le.mp hle) hhi
  rw [merge, if_pos hstart, if_neg hstop]
  have hlast : (t :: us ++ ws ++ u :: vs).getLast (by simp) = (u :: vs).getLast hv :=
    List.getLast_append_right _
  exact congrArg (Span.mk t.span.source t.span.start) (congrArg (Span.stop ∘ Token.span) hlast.symm)

end Span

/-! ### Pieces that are read -/

namespace Piece

/-- The tokens are the pieces, all of them and without a gap. -/
inductive Reads : List Piece → List Token → Prop
  | nil : Reads [] []
  | word {t : Token} {ps : List Piece} {us : List Token} (more : Reads ps us) :
      Reads (.word t.word :: ps) (t :: us)
  | phrase {x : Phrase} {ps : List Piece} {vs us : List Token} (inner : Reads x.pieces vs)
      (span : Token.Increasing vs → x.span = .across vs) (more : Reads ps us) :
      Reads (.phrase x :: ps) (vs ++ us)
  | skipped {stops : List Kind} {ps : List Piece} {vs us : List Token}
      (stray : ∀ t ∈ vs, t.kind ∉ stops) (more : Reads ps us) :
      Reads (.skipped stops :: ps) (vs ++ us)

namespace Reads

variable {ps qs : List Piece} {us vs : List Token} {x : Phrase} {w : Word}

theorem append (h : Reads ps us) (h' : Reads qs vs) : Reads (ps ++ qs) (us ++ vs) := by
  induction h with
  | nil => exact h'
  | word more ih => exact .word ih
  | phrase inner span more _ ih =>
      rw [List.append_assoc]
      exact .phrase inner span ih
  | skipped stray more ih =>
      rw [List.append_assoc]
      exact .skipped stray ih

theorem split (h : Reads (ps ++ qs) us) :
    ∃ vs ws, us = vs ++ ws ∧ Reads ps vs ∧ Reads qs ws := by
  induction ps generalizing us with
  | nil => exact ⟨[], us, rfl, .nil, h⟩
  | cons p ps ih =>
      cases h with
      | word more =>
          obtain ⟨vs, ws, rfl, hp, hq⟩ := ih more
          exact ⟨_, ws, rfl, .word hp, hq⟩
      | phrase inner span more =>
          obtain ⟨vs, ws, rfl, hp, hq⟩ := ih more
          exact ⟨_, ws, (List.append_assoc ..).symm, .phrase inner span hp, hq⟩
      | skipped stray more =>
          obtain ⟨vs, ws, rfl, hp, hq⟩ := ih more
          exact ⟨_, ws, (List.append_assoc ..).symm, .skipped stray hp, hq⟩

theorem ne_nil (h : Reads ps us) (hw : .word w ∈ ps) : us ≠ [] := by
  induction h with
  | nil => cases hw
  | word more ih => exact List.cons_ne_nil _ _
  | phrase inner span more _ ih | skipped stray more ih =>
      rcases List.mem_cons.mp hw with heq | hw
      · cases heq
      · exact List.append_ne_nil_of_right_ne_nil _ (ih hw)

/-- A phrase is read from a token at least. -/
theorem phrase_ne_nil (h : Reads x.pieces us) : us ≠ [] := by
  obtain ⟨w, hw⟩ := x.exists_word
  exact h.ne_nil hw

theorem of_singleton (h : Reads [.phrase x] us) :
    Reads x.pieces us ∧ (Token.Increasing us → x.span = .across us) := by
  cases h with
  | phrase inner span more =>
      cases more
      rw [List.append_nil]
      exact ⟨inner, span⟩

theorem of_word (h : Reads [.word w] us) : ∃ t, us = [t] ∧ t.word = w := by
  cases h with
  | word more =>
      cases more
      exact ⟨_, rfl, rfl⟩

/-- The last word is that of the last token. -/
theorem getLast (h : Reads (ps ++ [.word w]) us) (hne : us ≠ []) : (us.getLast hne).word = w := by
  obtain ⟨vs, ws, rfl, -, hw⟩ := h.split
  obtain ⟨t, rfl, rfl⟩ := hw.of_word
  simp

/-- A phrase among the pieces is read from a stretch of the tokens. -/
theorem stretch (h : Reads ps us) (hx : x ∈ ps.filterMap phrase?) :
    ∃ front vs back, us = front ++ vs ++ back ∧ Reads x.pieces vs ∧
      (Token.Increasing vs → x.span = .across vs) := by
  induction h with
  | nil => cases hx
  | @word t ps us more ih =>
      obtain ⟨front, vs, back, rfl, hv⟩ := ih hx
      exact ⟨t :: front, vs, back, rfl, hv⟩
  | @phrase y ps ws us inner span more _ ih =>
      rcases List.mem_cons.mp hx with rfl | hx
      · exact ⟨[], ws, us, rfl, inner, span⟩
      · obtain ⟨front, vs, back, rfl, hv⟩ := ih hx
        exact ⟨ws ++ front, vs, back, by simp, hv⟩
  | @skipped stops ps ws us stray more ih =>
      obtain ⟨front, vs, back, rfl, hv⟩ := ih hx
      exact ⟨ws ++ front, vs, back, by simp, hv⟩

/-- A phrase among the pieces starts and ends with tokens that they are read from. -/
theorem ends (h : Reads ps us) (ho : Token.Ordered us) (hx : x ∈ ps.filterMap phrase?) :
    x.span.lo < x.span.hi ∧ ∃ t ∈ us, ∃ u ∈ us, x.span.lo = t.span.lo ∧ x.span.hi = u.span.hi := by
  obtain ⟨front, vs, back, rfl, hv, hspan⟩ := h.stretch hx
  have hvs : Token.Ordered vs := ho.left.right
  obtain ⟨t, ht, u, hu, hlo, hhi⟩ := Span.across_ends hvs hv.phrase_ne_nil
  rw [hspan hvs.increasing]
  refine ⟨?_, t, by simp [ht], u, by simp [hu], hlo, hhi⟩
  have hlt := hvs.nonempty t ht
  have hcover := (Span.across_covers hvs ht).2
  omega

/-- **The phrases among the pieces stand one behind the other.** -/
theorem pairwise (h : Reads ps us) (ho : Token.Ordered us) :
    ((ps.filterMap phrase?).map Phrase.span).Pairwise fun a b => a.hi ≤ b.lo := by
  induction h with
  | nil => exact .nil
  | @word t ps us more ih => exact ih ho.tail
  | @skipped stops ps ws us stray more ih => exact ih ho.right
  | @phrase x ps vs us inner span more _ ih =>
      refine .cons (fun b hb => ?_) (ih ho.right)
      obtain ⟨y, hy, rfl⟩ := List.mem_map.mp hb
      obtain ⟨-, t, ht, -, -, hlo, -⟩ := more.ends ho.right hy
      obtain ⟨-, -, u, hu, -, hhi⟩ := Span.across_ends ho.left inner.phrase_ne_nil
      rw [span ho.left.increasing, hlo, hhi]
      exact ho.before hu ht

/-- They stand inside the span of the tokens. -/
theorem inside (h : Reads ps us) (ho : Token.Ordered us) (hx : x ∈ ps.filterMap phrase?) :
    (Span.across us).lo ≤ x.span.lo ∧ x.span.hi ≤ (Span.across us).hi := by
  obtain ⟨-, t, ht, u, hu, hlo, hhi⟩ := h.ends ho hx
  rw [hlo, hhi]
  exact ⟨(Span.across_covers ho ht).1, (Span.across_covers ho hu).2⟩

/-- A phrase of a script is read from a stretch of its tokens. -/
theorem has {s : Script} (h : Reads s.pieces us) (hx : s.Has x) :
    ∃ front vs back, us = front ++ vs ++ back ∧ Reads x.pieces vs ∧
      (Token.Increasing vs → x.span = .across vs) := by
  induction hx with
  | procedure hp =>
      refine h.stretch ?_
      rw [Script.pieces, phrases_among]
      exact List.mem_map_of_mem hp
  | child hx hy ih =>
      obtain ⟨front, vs, back, rfl, hv, -⟩ := ih
      rw [← Phrase.phrases_pieces] at hy
      obtain ⟨front', ws, back', rfl, hw, hspan⟩ := hv.stretch hy
      exact ⟨front ++ front', ws, back' ++ back, by simp, hw, hspan⟩

end Reads

end Piece

end ProcScript
