import ProcScript.Reader.Expr
import ProcScript.Script

/-!
# ProcScript — Reader — Stmt

Statements and blocks from tokens.  A statement is read behind its first token.  A block ends
before a kind that closes it, before a `def` or at the end, and always succeeds: a statement
that fails is left out, and the block goes on where a statement may start.
-/

namespace ProcScript

namespace Reader

/-- A type, by its name. -/
def typeName (r : Reader) : Outcome TypeName r.rest.length :=
  (r.expect .identifier).map fun t => ⟨t.lexeme, t.span⟩

/-- `name : Type [:= expr] ;` behind `var`. -/
def varDef (start : Span) (r : Reader) : Outcome Stmt r.rest.length :=
  (r.expect .identifier).bind fun name s _ =>
  (s.expect .colon).bind fun _ s _ =>
  s.typeName.bind fun type s _ =>
    match s.eat? .colonEqual with
    | some ⟨s', h⟩ =>
        (s'.expression.bind fun e s _ => (s.expect .semicolon).map fun t =>
          Stmt.varDef name.lexeme type (some e) (start.merge t.span)).past h
    | none =>
        (s.expect .semicolon).map fun t => .varDef name.lexeme type none (start.merge t.span)

/-- `[expr] ;` behind `return`. -/
def returnStmt (start : Span) (r : Reader) : Outcome Stmt r.rest.length :=
  if r.peek = .semicolon then
    (r.expect .semicolon).map fun t => .ret none (start.merge t.span)
  else
    r.expression.bind fun e s _ => (s.expect .semicolon).map fun t =>
      .ret (some e) (start.merge t.span)

/-- `( [expr {, expr}] ) ;` behind the name that is called. -/
def call (name : Token) (r : Reader) : Outcome Stmt r.rest.length :=
  (r.expect .leftParen).bind fun _ s _ =>
  s.arguments.bind fun args s _ =>
  (s.expect .semicolon).map fun t => .call name.lexeme args (name.span.merge t.span)

/-- `:= expr ;` behind the name that is assigned. -/
def assign (name : Token) (r : Reader) : Outcome Stmt r.rest.length :=
  (r.expect .colonEqual).bind fun _ s _ =>
  s.expression.bind fun e s _ =>
  (s.expect .semicolon).map fun t => .assign name.lexeme e (name.span.merge t.span)

/-- A call or an assignment, behind its first name. -/
def callOrAssign (name : Token) (r : Reader) : Outcome Stmt r.rest.length :=
  match r.peek with
  | .leftParen  => r.call name
  | .colonEqual => r.assign name
  | _           => r.failExpected .callOrAssignment

/-- The statements of a block and the reader behind them. -/
structure Block (n : Nat) where
  stmts : List Stmt
  after : Reader
  notLonger : after.rest.length ≤ n

/-- The block, seen from a reader with more tokens to come. -/
def Block.mono {m n : Nat} (b : Block m) (h : m ≤ n) : Block n :=
  ⟨b.stmts, b.after, Nat.le_trans b.notLonger h⟩

/-- A reading behind the block. -/
def Block.bind {α : Type} {n : Nat} (b : Block n)
    (k : List Stmt → (s : Reader) → s.rest.length ≤ n → Outcome α s.rest.length) : Outcome α n :=
  (k b.stmts b.after b.notLonger).mono b.notLonger

/-- The block behind a statement. -/
def Block.cons {n : Nat} (s : Stmt) (b : Block n) : Block n :=
  ⟨s :: b.stmts, b.after, b.notLonger⟩

mutual

/-- The statements up to a kind that closes the block, a `def` or the end. -/
def block (closers : List Kind) (r : Reader) : Block r.rest.length :=
  match r.next? with
  | none => ⟨[], r, Nat.le_refl _⟩
  | some (t, ⟨s, hs⟩) =>
    if t.kind = .kwDef ∨ t.kind ∈ closers then ⟨[], r, Nat.le_refl _⟩
    else
      match s.stmt t with
      | .ok stmt s' h =>
          ((s'.block closers).cons stmt).mono (Nat.le_of_lt (Nat.lt_trans h hs))
      | .fail s' h =>
          have hle := Nat.le_trans (length_toBoundary_le s') h
          (s'.toBoundary.block closers).mono (Nat.le_of_lt (Nat.lt_of_le_of_lt hle hs))
termination_by 3 * r.rest.length

/-- The statement whose first token `t` was just passed. -/
def stmt (t : Token) (r : Reader) : Outcome Stmt r.rest.length :=
  match t.kind with
  | .kwVar      => r.varDef t.span
  | .kwReturn   => r.returnStmt t.span
  | .kwIf       => r.ifStmt t.span
  | .kwWhile    => r.whileStmt t.span
  | .identifier => r.callOrAssign t
  | _           => .fail (r.report (.expected .statement t.kind) t.span) (Nat.le_refl _)
termination_by 3 * r.rest.length + 2

/-- `expr then stmt* [else stmt*] end` behind `if`. -/
def ifStmt (start : Span) (r : Reader) : Outcome Stmt r.rest.length :=
  r.expression.bind fun e s _ =>
  (s.expect .kwThen).bind fun _ s _ =>
  (s.block [.kwElse, .kwEnd]).bind fun body s _ =>
    match s.eat? .kwElse with
    | some ⟨s', h⟩ =>
        ((s'.block [.kwEnd]).bind fun other s _ => (s.expect .kwEnd).map fun t =>
          Stmt.ifElse e body other (start.merge t.span)).past h
    | none => (s.expect .kwEnd).map fun t => .ifThen e body (start.merge t.span)
termination_by 3 * r.rest.length + 1

/-- `expr do stmt* end` behind `while`. -/
def whileStmt (start : Span) (r : Reader) : Outcome Stmt r.rest.length :=
  r.expression.bind fun e s _ =>
  (s.expect .kwDo).bind fun _ s _ =>
  (s.block [.kwEnd]).bind fun body s _ =>
  (s.expect .kwEnd).map fun t => .whileDo e body (start.merge t.span)
termination_by 3 * r.rest.length + 1

end

end Reader

end ProcScript
