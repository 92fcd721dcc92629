import ProcScript.Proofs.Syntax.Words

/-!
# Syntax — the grammar

The grammar of scripts, as predicates on lists of kinds: one for each of its names, with one
constructor for each of its alternatives.  `Exp` is ambiguous, as a grammar for people is: it
says nothing of precedence, and what an operator stands between are any two expressions.  A
tree is written down as a sentence of the grammar (`Script.sentence`), whether it is nested or
not.
-/

namespace ProcScript

namespace Grammar

/-- `exp := literal | ID | '(' exp ')' | exp binop exp | unop exp`. -/
inductive Exp : List Kind → Prop
  | int : Exp [.intLiteral]
  | bool {k : Kind} (h : k = .kwTrue ∨ k = .kwFalse) : Exp [k]
  | name : Exp [.identifier]
  | paren {ks : List Kind} (h : Exp ks) : Exp (.leftParen :: (ks ++ [.rightParen]))
  | binary {ks ls : List Kind} (op : BinaryOp) (h : Exp ks) (h' : Exp ls) :
      Exp (ks ++ op.kind :: ls)
  | unary {ks : List Kind} (op : UnaryOp) (h : Exp ks) : Exp (op.kind :: ks)

/-- One or more of `P`, with a comma between any two. -/
inductive Separated (P : List Kind → Prop) : List Kind → Prop
  | one {ks : List Kind} (h : P ks) : Separated P ks
  | more {ks ls : List Kind} (h : P ks) (h' : Separated P ls) : Separated P (ks ++ .comma :: ls)

/-- None or more of `P`, with a comma between any two. -/
def Listed (P : List Kind → Prop) (ks : List Kind) : Prop := ks = [] ∨ Separated P ks

mutual

/-- `stmt`. -/
inductive Statement : List Kind → Prop
  | varDef : Statement [.kwVar, .identifier, .colon, .identifier, .semicolon]
  | varInit {ks : List Kind} (h : Exp ks) :
      Statement (.kwVar :: .identifier :: .colon :: .identifier :: .colonEqual ::
        (ks ++ [.semicolon]))
  | ret : Statement [.kwReturn, .semicolon]
  | retValue {ks : List Kind} (h : Exp ks) : Statement (.kwReturn :: (ks ++ [.semicolon]))
  | call {ks : List Kind} (h : Listed Exp ks) :
      Statement (.identifier :: .leftParen :: (ks ++ [.rightParen, .semicolon]))
  | assign {ks : List Kind} (h : Exp ks) :
      Statement (.identifier :: .colonEqual :: (ks ++ [.semicolon]))
  | ifThen {ks ls : List Kind} (h : Exp ks) (hb : Statements ls) :
      Statement (.kwIf :: (ks ++ .kwThen :: (ls ++ [.kwEnd])))
  | ifElse {ks ls ms : List Kind} (h : Exp ks) (hb : Statements ls) (ho : Statements ms) :
      Statement (.kwIf :: (ks ++ .kwThen :: (ls ++ .kwElse :: (ms ++ [.kwEnd]))))
  | whileDo {ks ls : List Kind} (h : Exp ks) (hb : Statements ls) :
      Statement (.kwWhile :: (ks ++ .kwDo :: (ls ++ [.kwEnd])))

/-- `stmt*`. -/
inductive Statements : List Kind → Prop
  | nil : Statements []
  | cons {ks ls : List Kind} (h : Statement ks) (h' : Statements ls) : Statements (ks ++ ls)

end

/-- `paramDef := ID ':' type`, where a type is an `ID`. -/
def ParamDef (ks : List Kind) : Prop := ks = [.identifier, .colon, .identifier]

/-- `procDef := 'def' ID '(' paramList? ')' ':' type 'is' stmt* 'end'`. -/
inductive ProcDef : List Kind → Prop
  | mk {ks ls : List Kind} (h : Listed ParamDef ks) (hb : Statements ls) :
      ProcDef (.kwDef :: .identifier :: .leftParen :: (ks ++ .rightParen :: .colon ::
        .identifier :: .kwIs :: (ls ++ [.kwEnd])))

/-- `script := procDef*`, without the `EOF` behind it. -/
inductive Sentence : List Kind → Prop
  | nil : Sentence []
  | cons {ks ls : List Kind} (h : ProcDef ks) (h' : Sentence ls) : Sentence (ks ++ ls)

end Grammar

/-! ### Trees are sentences -/

/-- The kinds of words. -/
def Word.kinds (ws : List Word) : List Kind := ws.map Word.tokenKind

theorem Expr.sentence (e : Expr) : Grammar.Exp (Word.kinds e.words) := by
  induction e with
  | var name id span => exact .name
  | int value id span => exact .int
  | bool value id span => cases value <;> exact .bool (by decide)
  | binary op left right id span ihl ihr =>
      simp only [Expr.words, Word.kinds, List.map_append, List.map_cons]
      exact .binary op ihl ihr
  | unary op operand id span ih => exact .unary op ih
  | paren inner id span ih =>
      simp only [Expr.words, Word.kinds, List.map_append, List.map_cons]
      exact .paren ih

theorem Word.separated_sentence {α : Type} {P : List Kind → Prop} {w : α → List Word}
    {as : List α} (hne : as ≠ []) (h : ∀ a ∈ as, P (kinds (w a))) :
    Grammar.Separated P (kinds (separated (as.map w))) := by
  induction as with
  | nil => exact absurd rfl hne
  | cons a as ih =>
      have ha := h a (List.mem_cons_self ..)
      cases as with
      | nil => exact .one ha
      | cons a' as =>
          have has := ih (List.cons_ne_nil a' as) fun a h' => h a (List.mem_cons_of_mem _ h')
          simp only [List.map_cons, separated, kinds, List.map_append]
          exact .more ha has

theorem Word.listed_sentence {α : Type} {P : List Kind → Prop} {w : α → List Word} {as : List α}
    (h : ∀ a ∈ as, P (kinds (w a))) : Grammar.Listed P (kinds (separated (as.map w))) := by
  by_cases has : as = []
  · subst has
    exact .inl rfl
  · exact .inr (separated_sentence has h)

mutual

theorem Stmt.sentence : ∀ s : Stmt, Grammar.Statement (Word.kinds s.words)
  | .varDef _ _ none _ => .varDef
  | .varDef _ _ (some e) _ => by
      simp only [Stmt.words, Word.kinds, List.map_append, List.map_cons, List.cons_append]
      exact .varInit e.sentence
  | .ret none _ => .ret
  | .ret (some e) _ => by
      simp only [Stmt.words, Word.kinds, List.map_append, List.map_cons]
      exact .retValue e.sentence
  | .call _ es _ => by
      simp only [Stmt.words, Word.kinds, List.map_append, List.map_cons, List.cons_append,
        List.append_assoc]
      exact .call (Word.listed_sentence fun e _ => e.sentence)
  | .assign _ e _ => by
      simp only [Stmt.words, Word.kinds, List.map_append, List.map_cons, List.cons_append]
      exact .assign e.sentence
  | .ifThen e body _ => by
      simp only [Stmt.words, Word.kinds, List.map_append, List.map_cons]
      exact .ifThen e.sentence (Block.sentence body)
  | .ifElse e body other _ => by
      simp only [Stmt.words, Word.kinds, List.map_append, List.map_cons]
      exact .ifElse e.sentence (Block.sentence body) (Block.sentence other)
  | .whileDo e body _ => by
      simp only [Stmt.words, Word.kinds, List.map_append, List.map_cons]
      exact .whileDo e.sentence (Block.sentence body)

theorem Block.sentence : ∀ ss : List Stmt, Grammar.Statements (Word.kinds (Block.words ss))
  | [] => .nil
  | s :: ss => by
      simp only [Block.words, Word.kinds, List.map_append]
      exact .cons s.sentence (Block.sentence ss)

end

theorem Procedure.sentence (p : Procedure) : Grammar.ProcDef (Word.kinds p.words) := by
  simp only [Procedure.words, Word.kinds, List.map_append, List.map_cons, List.cons_append,
    List.nil_append, List.append_assoc]
  exact .mk (Word.listed_sentence fun _ _ => rfl) (Block.sentence p.body)

/-- A script is written down as a sentence. -/
theorem Script.sentence (s : Script) : Grammar.Sentence (Word.kinds s.words) := by
  rw [Script.words]
  induction s.procedures with
  | nil => exact .nil
  | cons p ps ih =>
      simp only [List.flatMap_cons, Word.kinds, List.map_append]
      exact .cons p.sentence ih

end ProcScript
