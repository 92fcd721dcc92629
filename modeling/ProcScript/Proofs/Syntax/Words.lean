import ProcScript.Proofs.Syntax.Shape

/-!
# Syntax — the words of a tree

A token without its place is a `Word`: a kind that is written in one way, a name, or a number.
`Token.word` reads it off a token; a literal that is no 32-bit integer is the number 0.
`Script.words` writes a tree down again, as the words from which it would be read, in the order
of the grammar; parentheses are written where the tree has them and nowhere else.
-/

namespace ProcScript

/-- What is left of a token without its place. -/
inductive Word where
  | kind (kind : Kind)
  | name (name : String)
  | int (value : Int32)
  deriving DecidableEq

/-- The word of a token. -/
def Token.word (t : Token) : Word :=
  match t.kind with
  | .intLiteral => .int ((Text.int32? t.lexeme).getD 0)
  | .identifier => .name t.lexeme
  | k           => .kind k

/-- The kind of the token that a word is of. -/
def Word.tokenKind : Word → Kind
  | .kind k => k
  | .name _ => .identifier
  | .int _  => .intLiteral

@[simp] theorem Token.tokenKind_word (t : Token) : t.word.tokenKind = t.kind := by
  rw [Token.word]
  split <;> simp_all [Word.tokenKind]

theorem Token.kind_of_word {t : Token} {w : Word} (h : t.word = w) : t.kind = w.tokenKind := by
  rw [← h, Token.tokenKind_word]

/-- A kind that is written in one way. -/
def Kind.IsFixed (k : Kind) : Prop := k ≠ .intLiteral ∧ k ≠ .identifier

instance (k : Kind) : Decidable k.IsFixed := inferInstanceAs (Decidable (_ ∧ _))

theorem Token.word_of_kind {t : Token} {k : Kind} (h : t.kind = k) (hk : k.IsFixed) :
    t.word = .kind k := by
  subst h
  rw [Token.word]
  split
  · exact absurd ‹_› hk.1
  · exact absurd ‹_› hk.2
  · rfl

theorem Token.word_of_identifier {t : Token} (h : t.kind = .identifier) :
    t.word = .name t.lexeme := by
  simp [Token.word, h]

theorem Token.lexeme_of_word {t : Token} {name : String} (h : t.word = .name name) :
    t.lexeme = name := by
  rw [Token.word_of_identifier (Token.kind_of_word h)] at h
  exact Word.name.inj h

theorem Token.word_of_intLiteral {t : Token} (h : t.kind = .intLiteral) :
    t.word = .int ((Text.int32? t.lexeme).getD 0) := by
  simp [Token.word, h]

/-! ### Operators -/

/-- The token of an operator between two operands. -/
def BinaryOp.kind : BinaryOp → Kind
  | .add  => .plus
  | .sub  => .minus
  | .mul  => .star
  | .div  => .slash
  | .eq   => .equalEqual
  | .neq  => .bangEqual
  | .lt   => .less
  | .gt   => .greater
  | .ltEq => .lessEqual
  | .gtEq => .greaterEqual
  | .and  => .kwAnd
  | .or   => .kwOr

theorem BinaryOp.isFixed_kind (op : BinaryOp) : op.kind.IsFixed := by
  cases op <;> decide

/-- A token stands for an operator exactly if it is its token. -/
theorem Kind.binaryOp?_eq_some_iff {k : Kind} {level : Nat} {op : BinaryOp} :
    k.binaryOp? = some (level, op) ↔ k = op.kind ∧ level = op.level := by
  constructor
  · cases k <;> simp only [Kind.binaryOp?, Option.some.injEq, Prod.mk.injEq, reduceCtorEq,
      false_imp_iff] <;> rintro ⟨rfl, rfl⟩ <;> exact ⟨rfl, rfl⟩
  · rintro ⟨rfl, rfl⟩
    cases op <;> rfl

theorem BinaryOp.binaryOp?_kind (op : BinaryOp) : op.kind.binaryOp? = some (op.level, op) :=
  Kind.binaryOp?_eq_some_iff.mpr ⟨rfl, rfl⟩

/-- The token of an operator before one operand. -/
def UnaryOp.kind : UnaryOp → Kind
  | .neg => .minus
  | .not => .kwNot

theorem UnaryOp.isFixed_kind (op : UnaryOp) : op.kind.IsFixed := by
  cases op <;> decide

/-! ### Trees -/

/-- Lists of words with a comma between any two. -/
def Word.separated : List (List Word) → List Word
  | []             => []
  | [ws]           => ws
  | ws :: vs :: us => ws ++ .kind .comma :: separated (vs :: us)

def Expr.words : Expr → List Word
  | .var name _ _             => [.name name]
  | .bool value _ _           => [.kind (if value then .kwTrue else .kwFalse)]
  | .int value _ _            => [.int value]
  | .binary op left right _ _ => left.words ++ .kind op.kind :: right.words
  | .unary op operand _ _     => .kind op.kind :: operand.words
  | .paren inner _ _          => .kind .leftParen :: (inner.words ++ [.kind .rightParen])

/-- The kinds with which an expression starts. -/
def Expr.starts : List Kind :=
  [.intLiteral, .identifier, .kwTrue, .kwFalse, .minus, .kwNot, .leftParen]

theorem Expr.words_eq_cons (e : Expr) :
    ∃ w ws, e.words = w :: ws ∧ w.tokenKind ∈ Expr.starts := by
  induction e with
  | var name id span => exact ⟨_, _, rfl, (by decide : Kind.identifier ∈ starts)⟩
  | int value id span => exact ⟨_, _, rfl, (by decide : Kind.intLiteral ∈ starts)⟩
  | bool value id span => exact ⟨_, _, rfl, by cases value <;> decide⟩
  | unary op operand id span ih => exact ⟨_, _, rfl, by cases op <;> decide⟩
  | paren inner id span ih => exact ⟨_, _, rfl, by decide⟩
  | binary op left right id span ihl ihr =>
      obtain ⟨w, ws, hw, hk⟩ := ihl
      exact ⟨w, ws ++ .kind op.kind :: right.words, by simp [Expr.words, hw], hk⟩

mutual

def Stmt.words : Stmt → List Word
  | .varDef name typeName none _ =>
      [.kind .kwVar, .name name, .kind .colon, .name typeName.name, .kind .semicolon]
  | .varDef name typeName (some init) _ =>
      [.kind .kwVar, .name name, .kind .colon, .name typeName.name, .kind .colonEqual] ++
        init.words ++ [.kind .semicolon]
  | .ret none _ => [.kind .kwReturn, .kind .semicolon]
  | .ret (some value) _ => .kind .kwReturn :: (value.words ++ [.kind .semicolon])
  | .call callee args _ =>
      [.name callee, .kind .leftParen] ++ Word.separated (args.map Expr.words) ++
        [.kind .rightParen, .kind .semicolon]
  | .assign target value _ =>
      [.name target, .kind .colonEqual] ++ value.words ++ [.kind .semicolon]
  | .ifThen condition body _ =>
      .kind .kwIf :: (condition.words ++ .kind .kwThen :: (Block.words body ++ [.kind .kwEnd]))
  | .ifElse condition body other _ =>
      .kind .kwIf :: (condition.words ++ .kind .kwThen :: (Block.words body ++
        .kind .kwElse :: (Block.words other ++ [.kind .kwEnd])))
  | .whileDo condition body _ =>
      .kind .kwWhile :: (condition.words ++ .kind .kwDo :: (Block.words body ++ [.kind .kwEnd]))

def Block.words : List Stmt → List Word
  | []      => []
  | s :: ss => s.words ++ Block.words ss

end

def Param.words (q : Param) : List Word := [.name q.name, .kind .colon, .name q.typeName.name]

def Procedure.words (p : Procedure) : List Word :=
  [.kind .kwDef, .name p.name, .kind .leftParen] ++ Word.separated (p.params.map Param.words) ++
    [.kind .rightParen, .kind .colon, .name p.returns.name, .kind .kwIs] ++
    Block.words p.body ++ [.kind .kwEnd]

/-- The words of a procedure behind its `def` and in front of its body. -/
def Procedure.header (p : Procedure) : List Word :=
  .name p.name :: .kind .leftParen :: (Word.separated (p.params.map Param.words) ++
    [.kind .rightParen, .kind .colon, .name p.returns.name, .kind .kwIs])

theorem Procedure.words_eq (p : Procedure) :
    p.words = .kind .kwDef :: (p.header ++ Block.words p.body ++ [.kind .kwEnd]) := by
  simp [words, header]

theorem Block.words_append (ss ss' : List Stmt) :
    Block.words (ss ++ ss') = Block.words ss ++ Block.words ss' := by
  induction ss with
  | nil => rfl
  | cons s ss ih => rw [List.cons_append, Block.words, Block.words, ih, List.append_assoc]

def Script.words (s : Script) : List Word := s.procedures.flatMap Procedure.words

theorem Word.separated_cons {ws : List Word} {vs : List (List Word)} (h : vs ≠ []) :
    Word.separated (ws :: vs) = ws ++ .kind .comma :: Word.separated vs := by
  cases vs with
  | nil => exact absurd rfl h
  | cons v vs => rfl

end ProcScript
