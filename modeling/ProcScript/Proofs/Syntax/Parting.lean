import ProcScript.Proofs.Syntax.Acceptance
import ProcScript.Proofs.Syntax.Independence

/-!
# Syntax — a script parted inside a block

A sentence can be parted at any place in a block where a statement may start or the block may
end.  `Grammar.PartedProcDef depth ks ls` says that `ks` and `ls` are the two parts of a
procedure that is parted so, with `depth` blocks open at the place: the body, and one for each
`if` and `while` around the place.  `Script.Gap` is such a place in a list of tokens.

Tokens that are parted so are those of a tree that is parted in the same place: `Block.Parted`
and its likes say what words of the tree stand before the place and what words behind it
(`Grammar.PartedProcDef.tree`).  What a reader does at the place is shown by induction on them.
-/

namespace ProcScript

namespace Grammar

mutual

/-- `stmt*`, parted inside `depth` of its statements. -/
inductive PartedStatements : Nat → List Kind → List Kind → Prop
  | here {ks ls : List Kind} (h : Statements ks) (h' : Statements ls) : PartedStatements 0 ks ls
  | inside {depth : Nat} {ks ms ns ls : List Kind} (h : Statements ks)
      (hs : PartedStatement depth ms ns) (h' : Statements ls) :
      PartedStatements depth (ks ++ ms) (ns ++ ls)

/-- `stmt`, parted in one of its blocks. -/
inductive PartedStatement : Nat → List Kind → List Kind → Prop
  | ifThen {depth : Nat} {ks ms ns : List Kind} (h : Exp ks) (hb : PartedStatements depth ms ns) :
      PartedStatement (depth + 1) (.kwIf :: (ks ++ .kwThen :: ms)) (ns ++ [.kwEnd])
  | ifElse {depth : Nat} {ks ms ns ls : List Kind} (h : Exp ks)
      (hb : PartedStatements depth ms ns) (ho : Statements ls) :
      PartedStatement (depth + 1) (.kwIf :: (ks ++ .kwThen :: ms))
        (ns ++ .kwElse :: (ls ++ [.kwEnd]))
  | orElse {depth : Nat} {ks ls ms ns : List Kind} (h : Exp ks) (hb : Statements ls)
      (ho : PartedStatements depth ms ns) :
      PartedStatement (depth + 1) (.kwIf :: (ks ++ .kwThen :: (ls ++ .kwElse :: ms)))
        (ns ++ [.kwEnd])
  | whileDo {depth : Nat} {ks ms ns : List Kind} (h : Exp ks)
      (hb : PartedStatements depth ms ns) :
      PartedStatement (depth + 1) (.kwWhile :: (ks ++ .kwDo :: ms)) (ns ++ [.kwEnd])

end

/-- `procDef`, parted in its body. -/
inductive PartedProcDef : Nat → List Kind → List Kind → Prop
  | mk {depth : Nat} {ks ms ns : List Kind} (h : Listed ParamDef ks)
      (hb : PartedStatements depth ms ns) :
      PartedProcDef (depth + 1) (.kwDef :: .identifier :: .leftParen :: (ks ++ .rightParen ::
        .colon :: .identifier :: .kwIs :: ms)) (ns ++ [.kwEnd])

/-- A sentence starts with a procedure. -/
theorem Sentence.kind_eq {k : Kind} {ks : List Kind} (h : Sentence (k :: ks)) : k = .kwDef := by
  generalize hks : k :: ks = ls at h
  obtain _ | ⟨⟨-, -⟩, -⟩ := h
  · cases hks
  · exact (List.cons.inj hks).1

end Grammar

/-! ### Trees -/

mutual

/-- The words of a block, parted inside `depth` of its statements. -/
inductive Block.Parted : Nat → List Stmt → List Word → List Word → Prop
  | here {front back : List Stmt} (h : Block.Nested front) (h' : Block.Nested back) :
      Block.Parted 0 (front ++ back) (Block.words front) (Block.words back)
  | inside {depth : Nat} {front back : List Stmt} {s : Stmt} {us vs : List Word}
      (h : Block.Nested front) (hs : Stmt.Parted depth s us vs) (h' : Block.Nested back) :
      Block.Parted depth (front ++ s :: back) (Block.words front ++ us) (vs ++ Block.words back)

/-- The words of a statement, parted in one of its blocks. -/
inductive Stmt.Parted : Nat → Stmt → List Word → List Word → Prop
  | ifThen {depth : Nat} {e : Expr} {body : List Stmt} {us vs : List Word} (h : e.Nested)
      (hb : Block.Parted depth body us vs) :
      Stmt.Parted (depth + 1) (.ifThen e body .none)
        (.kind .kwIf :: (e.words ++ .kind .kwThen :: us)) (vs ++ [.kind .kwEnd])
  | ifElse {depth : Nat} {e : Expr} {body other : List Stmt} {us vs : List Word} (h : e.Nested)
      (hb : Block.Parted depth body us vs) (ho : Block.Nested other) :
      Stmt.Parted (depth + 1) (.ifElse e body other .none)
        (.kind .kwIf :: (e.words ++ .kind .kwThen :: us))
        (vs ++ .kind .kwElse :: (Block.words other ++ [.kind .kwEnd]))
  | orElse {depth : Nat} {e : Expr} {body other : List Stmt} {us vs : List Word} (h : e.Nested)
      (hb : Block.Nested body) (ho : Block.Parted depth other us vs) :
      Stmt.Parted (depth + 1) (.ifElse e body other .none)
        (.kind .kwIf :: (e.words ++ .kind .kwThen :: (Block.words body ++ .kind .kwElse :: us)))
        (vs ++ [.kind .kwEnd])
  | whileDo {depth : Nat} {e : Expr} {body : List Stmt} {us vs : List Word} (h : e.Nested)
      (hb : Block.Parted depth body us vs) :
      Stmt.Parted (depth + 1) (.whileDo e body .none)
        (.kind .kwWhile :: (e.words ++ .kind .kwDo :: us)) (vs ++ [.kind .kwEnd])

end

/-- The words of a procedure, parted in its body. -/
inductive Procedure.Parted : Nat → Procedure → List Word → List Word → Prop
  | mk {depth : Nat} {p : Procedure} {us vs : List Word} (hb : Block.Parted depth p.body us vs) :
      Procedure.Parted (depth + 1) p (.kind .kwDef :: (p.header ++ us)) (vs ++ [.kind .kwEnd])

mutual

/-- A parted block is nested, and its parts are its words. -/
theorem Block.Parted.nested : ∀ {depth : Nat} {ss : List Stmt} {us vs : List Word},
    Block.Parted depth ss us vs → Block.Nested ss ∧ Block.words ss = us ++ vs
  | _, _, _, _, .here h h' => ⟨Block.nested_append.mpr ⟨h, h'⟩, Block.words_append _ _⟩
  | _, _, _, _, .inside h hs h' => by
      obtain ⟨hn, hw⟩ := hs.nested
      refine ⟨Block.nested_append.mpr ⟨h, Block.nested_cons.mpr ⟨hn, h'⟩⟩, ?_⟩
      simp only [Block.words_append, Block.words, hw, List.append_assoc]

theorem Stmt.Parted.nested : ∀ {depth : Nat} {s : Stmt} {us vs : List Word},
    Stmt.Parted depth s us vs → s.Nested ∧ s.words = us ++ vs
  | _, _, _, _, .ifThen h hb => by
      obtain ⟨hn, hw⟩ := hb.nested
      exact ⟨Stmt.nested_ifThen.mpr ⟨h, hn⟩, by simp [Stmt.words, hw]⟩
  | _, _, _, _, .ifElse h hb ho => by
      obtain ⟨hn, hw⟩ := hb.nested
      exact ⟨Stmt.nested_ifElse.mpr ⟨h, hn, ho⟩, by simp [Stmt.words, hw]⟩
  | _, _, _, _, .orElse h hb ho => by
      obtain ⟨hn, hw⟩ := ho.nested
      exact ⟨Stmt.nested_ifElse.mpr ⟨h, hb, hn⟩, by simp [Stmt.words, hw]⟩
  | _, _, _, _, .whileDo h hb => by
      obtain ⟨hn, hw⟩ := hb.nested
      exact ⟨Stmt.nested_whileDo.mpr ⟨h, hn⟩, by simp [Stmt.words, hw]⟩

end

theorem Procedure.Parted.nested {depth : Nat} {p : Procedure} {us vs : List Word}
    (h : p.Parted depth us vs) : Block.Nested p.body ∧ p.words = us ++ vs := by
  obtain ⟨hb⟩ := h
  obtain ⟨hn, hw⟩ := hb.nested
  exact ⟨hn, by simp [Procedure.words_eq, hw]⟩

/-! ### Parted sentences have parted trees -/

namespace Grammar

mutual

/-- Parted statements have trees that are parted in the same place. -/
theorem PartedStatements.tree : ∀ {depth : Nat} {ks ls : List Kind},
    PartedStatements depth ks ls → ∀ {ts us : List Token}, ts.map Token.kind = ks →
      us.map Token.kind = ls →
      ∃ ss : List Stmt, Block.Parted depth ss (ts.map Token.word) (us.map Token.word)
  | _, _, _, .here h h', ts, us, hts, hus => by
      obtain ⟨front, hf, hwf⟩ := h.tree hts
      obtain ⟨back, hb, hwb⟩ := h'.tree hus
      rw [← hwf, ← hwb]
      exact ⟨front ++ back, .here hf hb⟩
  | _, _, _, .inside h hs h', ts, us, hts, hus => by
      obtain ⟨ts₁, ts₂, rfl, hts₁, hts₂⟩ := List.map_eq_append_iff.mp hts
      obtain ⟨us₁, us₂, rfl, hus₁, hus₂⟩ := List.map_eq_append_iff.mp hus
      obtain ⟨front, hf, hwf⟩ := h.tree hts₁
      obtain ⟨back, hb, hwb⟩ := h'.tree hus₂
      obtain ⟨s, hps⟩ := hs.tree hts₂ hus₁
      rw [List.map_append, List.map_append, ← hwf, ← hwb]
      exact ⟨front ++ s :: back, .inside hf hps hb⟩

theorem PartedStatement.tree : ∀ {depth : Nat} {ks ls : List Kind},
    PartedStatement depth ks ls → ∀ {ts us : List Token}, ts.map Token.kind = ks →
      us.map Token.kind = ls →
      ∃ s : Stmt, Stmt.Parted depth s (ts.map Token.word) (us.map Token.word)
  | _, _, _, .ifThen h hb, ts, us, hts, hus => by
      simp only [List.map_eq_cons_iff, List.map_eq_append_iff, List.map_eq_nil_iff] at hts hus
      obtain ⟨t₁, _, rfl, h₁, ts₁, _, rfl, hts₁, t₂, ts₂, rfl, h₂, hts₂⟩ := hts
      obtain ⟨us₁, _, rfl, hus₁, u, _, rfl, hu, rfl⟩ := hus
      obtain ⟨e, he, hw⟩ := h.tree hts₁
      obtain ⟨body, hbody⟩ := hb.tree hts₂ hus₁
      have hs := Stmt.Parted.ifThen he hbody
      exact ⟨_, by simpa [Token.word, hw, h₁, h₂, hu] using hs⟩
  | _, _, _, .ifElse h hb ho, ts, us, hts, hus => by
      simp only [List.map_eq_cons_iff, List.map_eq_append_iff, List.map_eq_nil_iff] at hts hus
      obtain ⟨t₁, _, rfl, h₁, ts₁, _, rfl, hts₁, t₂, ts₂, rfl, h₂, hts₂⟩ := hts
      obtain ⟨us₁, _, rfl, hus₁, u, _, rfl, hu, us₂, _, rfl, hus₂, u', _, rfl, hu', rfl⟩ := hus
      obtain ⟨e, he, hw⟩ := h.tree hts₁
      obtain ⟨body, hbody⟩ := hb.tree hts₂ hus₁
      obtain ⟨other, hother, hwo⟩ := ho.tree hus₂
      have hs := Stmt.Parted.ifElse he hbody hother
      exact ⟨_, by simpa [Token.word, hw, hwo, h₁, h₂, hu, hu'] using hs⟩
  | _, _, _, .orElse h hb ho, ts, us, hts, hus => by
      simp only [List.map_eq_cons_iff, List.map_eq_append_iff, List.map_eq_nil_iff] at hts hus
      obtain ⟨t₁, _, rfl, h₁, ts₁, _, rfl, hts₁, t₂, _, rfl, h₂, ts₂, _, rfl, hts₂, t₃, ts₃, rfl,
        h₃, hts₃⟩ := hts
      obtain ⟨us₁, _, rfl, hus₁, u, _, rfl, hu, rfl⟩ := hus
      obtain ⟨e, he, hw⟩ := h.tree hts₁
      obtain ⟨body, hbody, hwb⟩ := hb.tree hts₂
      obtain ⟨other, hother⟩ := ho.tree hts₃ hus₁
      have hs := Stmt.Parted.orElse he hbody hother
      exact ⟨_, by simpa [Token.word, hw, hwb, h₁, h₂, h₃, hu] using hs⟩
  | _, _, _, .whileDo h hb, ts, us, hts, hus => by
      simp only [List.map_eq_cons_iff, List.map_eq_append_iff, List.map_eq_nil_iff] at hts hus
      obtain ⟨t₁, _, rfl, h₁, ts₁, _, rfl, hts₁, t₂, ts₂, rfl, h₂, hts₂⟩ := hts
      obtain ⟨us₁, _, rfl, hus₁, u, _, rfl, hu, rfl⟩ := hus
      obtain ⟨e, he, hw⟩ := h.tree hts₁
      obtain ⟨body, hbody⟩ := hb.tree hts₂ hus₁
      have hs := Stmt.Parted.whileDo he hbody
      exact ⟨_, by simpa [Token.word, hw, h₁, h₂, hu] using hs⟩

end

/-- A parted procedure has a tree that is parted in the same place. -/
theorem PartedProcDef.tree {depth : Nat} {ts us : List Token}
    (h : PartedProcDef depth (ts.map Token.kind) (us.map Token.kind)) :
    ∃ p : Procedure, p.Parted depth (ts.map Token.word) (us.map Token.word) := by
  generalize hts : ts.map Token.kind = ks at h
  generalize hus : us.map Token.kind = ls at h
  obtain ⟨hq, hb⟩ := h
  simp only [List.map_eq_cons_iff, List.map_eq_append_iff, List.map_eq_nil_iff] at hts hus
  obtain ⟨t₁, _, rfl, h₁, t₂, _, rfl, h₂, t₃, _, rfl, h₃, ts₁, _, rfl, hts₁, t₄, _, rfl, h₄,
    t₅, _, rfl, h₅, t₆, _, rfl, h₆, t₇, ts₂, rfl, h₇, hts₂⟩ := hts
  obtain ⟨us₁, _, rfl, hus₁, u, _, rfl, hu, rfl⟩ := hus
  obtain ⟨params, -, hwq⟩ := hq.trees (fun _ => ParamDef.tree) hts₁
  obtain ⟨body, hbody⟩ := hb.tree hts₂ hus₁
  have hp := Procedure.Parted.mk (p := ⟨t₂.lexeme, params, ⟨t₆.lexeme, .none⟩, body, .none⟩) hbody
  exact ⟨_, by simpa [Procedure.header, Token.word, hwq, h₁, h₂, h₃, h₄, h₅, h₆, h₇, hu] using hp⟩

end Grammar

/-! ### Places in a list of tokens -/

/-- A place in a list of tokens, in a block of a procedure, where a statement may start or the
block may end; `depth` blocks are open there.  The list is parted at the place and around the
procedure, and ends with its first `eof`. -/
structure Script.Gap (ts : List Token) (depth : Nat) where
  /-- The procedures before the one that is parted. -/
  earlier : List Token
  before : List Token
  behind : List Token
  /-- The procedures behind it. -/
  later : List Token
  split : (ts.takeWhile fun t => t.kind ≠ .eof) = earlier ++ before ++ behind ++ later
  sentence_earlier : Grammar.Sentence (earlier.map Token.kind)
  parted : Grammar.PartedProcDef depth (before.map Token.kind) (behind.map Token.kind)
  sentence_later : Grammar.Sentence (later.map Token.kind)

namespace Script.Gap

variable {ts us : List Token} {depth : Nat}

/-- The first `eof` and what follows it. -/
def rest (_ : Gap ts depth) : List Token := ts.dropWhile fun t => t.kind ≠ .eof

/-- The tokens with others put in at the place. -/
def insert (g : Gap ts depth) (us : List Token) : List Token :=
  g.earlier ++ g.before ++ us ++ g.behind ++ g.later ++ g.rest

/-- The tokens without those from the place to the end of the procedure. -/
def cut (g : Gap ts depth) : List Token := g.earlier ++ g.before ++ g.later ++ g.rest

theorem insert_nil (g : Gap ts depth) : g.insert [] = ts := by
  rw [insert, List.append_nil, ← g.split]
  exact List.takeWhile_append_dropWhile

/-- Where nothing is found, every literal before the first `eof` is in range. -/
theorem readable (g : Gap ts depth) (h : (ofTokens ts).2 = []) :
    ∀ t ∈ g.earlier ++ g.before ++ g.behind ++ g.later, t.Readable :=
  g.split ▸ (trail_ofTokens ts).readable h

/-- No `eof` stands before the first one. -/
theorem inside (g : Gap ts depth) :
    ∀ t ∈ g.earlier ++ g.before ++ g.behind ++ g.later, t.kind ≠ .eof := by
  rw [← g.split]
  intro t ht
  simpa using List.all_eq_true.mp List.all_takeWhile t ht

/-- The rest starts with an `eof`, if there is one. -/
theorem head?_rest (g : Gap ts depth) : ∀ t ∈ g.rest.head?, t.kind = .eof := by
  intro t ht
  have hnot := List.head?_dropWhile_not (fun t : Token => t.kind ≠ .eof) ts
  rw [show (ts.dropWhile fun t => t.kind ≠ .eof).head? = some t from ht] at hnot
  simpa using hnot

/-- A list without an `eof`, put in front of the rest, is what is read. -/
theorem takeWhile_rest (g : Gap ts depth) (h : ∀ t ∈ us, t.kind ≠ .eof) :
    (us ++ g.rest).takeWhile (fun t => t.kind ≠ .eof) = us := by
  rw [List.takeWhile_append_of_pos (by simpa using h)]
  have hrest : g.rest.takeWhile (fun t => t.kind ≠ .eof) = [] := by
    cases hr : g.rest with
    | nil => rfl
    | cons t rest => simp [g.head?_rest t (by simp [hr])]
  rw [hrest, List.append_nil]

/-- The procedure that is parted starts before the place. -/
theorem before_eq_cons (g : Gap ts depth) : ∃ t us, g.before = t :: us ∧ t.kind = .kwDef := by
  have hparted := g.parted
  generalize hb : g.before.map Token.kind = ks, g.behind.map Token.kind = ls at hparted
  obtain ⟨-, -⟩ := hparted
  obtain ⟨t, us, hbefore, ht, -⟩ := List.map_eq_cons_iff.mp hb
  exact ⟨t, us, hbefore, ht⟩

theorem head?_before (g : Gap ts depth) (us : List Token) :
    ∀ t ∈ (g.before ++ us).head?, t.kind = .kwDef := by
  obtain ⟨t, before, hb, ht⟩ := g.before_eq_cons
  simp [hb, ht]

theorem head?_later (g : Gap ts depth) : ∀ t ∈ g.later.head?, t.kind = .kwDef := by
  intro t ht
  have hlater := g.sentence_later
  obtain ⟨us, hus⟩ := List.head?_eq_some_iff.mp ht
  rw [hus, List.map_cons] at hlater
  exact hlater.kind_eq

/-- The trees of the procedures. -/
theorem trees (g : Gap ts depth) : ∃ (ps : List Procedure) (p : Procedure) (qs : List Procedure),
    (∀ q ∈ ps ++ p :: qs, Block.Nested q.body) ∧
    p.Parted depth (g.before.map Token.word) (g.behind.map Token.word) ∧
    ps.flatMap Procedure.words = g.earlier.map Token.word ∧
    qs.flatMap Procedure.words = g.later.map Token.word := by
  obtain ⟨s, hs, hws⟩ := g.sentence_earlier.tree rfl
  obtain ⟨p, hp⟩ := g.parted.tree
  obtain ⟨t, ht, hwt⟩ := g.sentence_later.tree rfl
  refine ⟨s.procedures, p, t.procedures, ?_, hp, hws, hwt⟩
  intro q hq
  rcases List.mem_append.mp hq with hq | hq
  · exact hs q hq
  · rcases List.mem_cons.mp hq with rfl | hq
    · exact hp.nested.1
    · exact ht q hq

end Script.Gap

/-- `def f(): Int is while true do end return 1; end def g(): Int is return 2; end`. -/
def Script.spinning : List Token :=
  Token.lines "a" [(.kwDef, "def"), (.identifier, "f"), (.leftParen, "("), (.rightParen, ")"),
    (.colon, ":"), (.identifier, "Int"), (.kwIs, "is"), (.kwWhile, "while"), (.kwTrue, "true"),
    (.kwDo, "do"), (.kwEnd, "end"), (.kwReturn, "return"), (.intLiteral, "1"), (.semicolon, ";"),
    (.kwEnd, "end"), (.kwDef, "def"), (.identifier, "g"), (.leftParen, "("), (.rightParen, ")"),
    (.colon, ":"), (.identifier, "Int"), (.kwIs, "is"), (.kwReturn, "return"), (.intLiteral, "2"),
    (.semicolon, ";"), (.kwEnd, "end"), (.eof, "")]

/-- In the `while`. -/
def Script.insideSpinning : Gap spinning 2 where
  earlier := []
  before := spinning.take 10
  behind := (spinning.drop 10).take 5
  later := (spinning.drop 15).take 11
  split := rfl
  sentence_earlier := .nil
  parted := .mk (.inl rfl) (@Grammar.PartedStatements.inside 1 [] _ _
    [.kwReturn, .intLiteral, .semicolon] .nil (.whileDo (.bool (.inl rfl)) (.here .nil .nil))
    (.cons (.retValue .int) .nil))
  sentence_later := .cons (.mk (.inl rfl) (.cons (.retValue .int) .nil)) .nil

end ProcScript
