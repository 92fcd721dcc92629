import ProcScript.Diagnostic
import ProcScript.ExprTypes
import ProcScript.ProcedureTable
import ProcScript.Script

/-!
# ProcScript — Check

What a script means, and what is wrong with it.  A procedure is checked once, from its first
statement to its last.  Its names live in one scope, whatever block declares them; literals and
variables are given a type, and no other expression is, so an operator or a pair of parentheses
reads as `error`.  A procedure can be called once its own body was checked, so by later
procedures only.  Each rule reports what it finds and goes on.

A script is checked if every type written in it has a known name; otherwise the first one that
has not is a misuse, and nothing is checked.
-/

namespace ProcScript

/-- Where the checking of a script stands. -/
structure Checking where
  /-- The names bound in the procedure that is being checked. -/
  scope : Scope
  /-- The procedures whose bodies were checked. -/
  procedures : ProcedureTable
  /-- The types of the expressions met. -/
  types : ExprTypes
  /-- What was found wrong, oldest first. -/
  found : List Diagnostic

namespace Checking

/-- Before the first procedure. -/
def start : Checking := ⟨.empty, .empty, .empty, []⟩

/-- With `d` found. -/
def report (c : Checking) (d : Diagnostic) : Checking := { c with found := c.found ++ [d] }

/-- With the type of an expression. -/
def record (c : Checking) (id : ExprId) (type : Ty) : Checking :=
  { c with types := c.types.record id type }

/-- The variable that `name` is bound to has this type; there is none if `name` is a parameter or
not bound. -/
def varType? (c : Checking) (name : String) : Option Ty :=
  (c.scope.find? name).bind Binding.varType?

/-- An expression whose type has to be `expected`; it is pointed at by `loc`. -/
def require (c : Checking) (expected : Ty) (id : ExprId) (loc : Span) : Checking :=
  if (c.types.get id).agrees expected then c
  else c.report (.typeMismatch expected (c.types.get id) loc)

/-- The types of an expression and its parts. -/
def resolve (c : Checking) : Expr → Checking
  | .var name id _           => (c.varType? name).elim c (c.record id)
  | .bool _ id _             => c.record id .bool
  | .int _ id _              => c.record id .int32
  | .binary _ left right _ _ => (c.resolve left).resolve right
  | .unary _ operand _ _     => c.resolve operand
  | .paren inner _ _         => c.resolve inner

/-- The types of expressions, one after the other. -/
def resolveAll (c : Checking) (es : List Expr) : Checking := es.foldl resolve c

/-- With a name bound; a name that is bound already is found wrong.  Says which. -/
def declare (c : Checking) (b : Binding) (symbol : SymbolKind) : Bool × Checking :=
  match c.scope.define b with
  | .ok scope => (true, { c with scope })
  | .error _  => (false, c.report (.dupSymbol b.name symbol b.loc))

/-- A variable: its initial value is met before its name is bound, and compared with its type
only if the name is new. -/
def varDef (c : Checking) (name : String) (type : Ty) (init : Option Expr) (span : Span) :
    Checking :=
  match (c.resolveAll init.toList).declare (.var name type span init.isSome) .variable with
  | (true, c)  => init.elim c fun e => c.require type e.id e.span
  | (false, c) => c

/-- An assignment: only the type of a variable is compared. -/
def assign (c : Checking) (target : String) (value : Expr) : Checking :=
  let c := c.resolve value
  match c.varType? target with
  | none      => c
  | some type =>
      let c := c.require type value.id value.span
      { c with scope := c.scope.markInitialized target }

/-- A call: a name bound in the procedure hides every procedure of that name, and a call of it
is not looked at. -/
def call (c : Checking) (callee : String) (args : List Expr) (span : Span) : Checking :=
  let c := c.resolveAll args
  if c.scope.contains callee then c
  else
    match c.procedures.find? callee with
    | none   => c.report (.noSuchSymbol callee span)
    | some p =>
        if p.arity ≠ args.length then c.report (.argCountMismatch p.arity args.length span)
        else (p.params.zip args).foldl (fun c (f, e) => c.require f.type e.id span) c

mutual

/-- A statement and the blocks in it. -/
def stmt (c : Checking) : Stmt → Checking
  | .varDef name typeName init span => c.varDef name typeName.ty init span
  | .ret value _                      => c.resolveAll value.toList
  | .call callee args span            => c.call callee args span
  | .assign target value _            => c.assign target value
  | .ifThen condition body _          => (c.resolve condition).block body
  | .ifElse condition body other _    => ((c.resolve condition).block body).block other
  | .whileDo condition body _         => (c.resolve condition).block body

/-- The statements of a block, one after the other. -/
def block (c : Checking) : List Stmt → Checking
  | []      => c
  | s :: ss => (c.stmt s).block ss

end

end Checking

/-! ### Procedures -/

/-- A parameter as callers know it. -/
def Param.formal (p : Param) : Formal := ⟨p.name, p.typeName.ty, p.span⟩

namespace Procedure

/-- The procedure as callers know it. -/
def entry (p : Procedure) : ProcedureEntry :=
  ⟨p.name, p.params.map Param.formal, p.returns.ty, p.span⟩

/-- How many returns its body should have: none if it gives nothing back, else one. -/
def returnCount (p : Procedure) : Nat := if p.returns.ty = .void then 0 else 1

/-- What is wrong with one statement of the body as a return. -/
def returnProblem? (types : ExprTypes) (p : Procedure) : Stmt → Option Diagnostic
  | .ret (some e) span =>
      if (types.get e.id).agrees p.returns.ty then none
      else some (.typeMismatch p.returns.ty (types.get e.id) span)
  | .ret none span =>
      if p.returns.ty = .void then none else some (.typeMismatch p.returns.ty .void span)
  | _ => none

/-- What is wrong with the returns of the body, those inside its blocks left aside. -/
def returnProblems (types : ExprTypes) (p : Procedure) : List Diagnostic :=
  p.body.filterMap (p.returnProblem? types)
    ++ if p.body.countP Stmt.isReturn = p.returnCount then []
      else [.returnCountMismatch p.returnCount p.span]

/-- The statements of the body behind its first return. -/
def unreachable (p : Procedure) : List Diagnostic :=
  (p.body.dropWhile fun s => !s.isReturn).tail.map fun s =>
    .unreachable (if s.isReturn then .additionalReturn else .codeAfterReturn) s.span

end Procedure

namespace Checking

/-- The parameters and the body of a procedure, in a scope of their own. -/
def body (c : Checking) (p : Procedure) : Checking :=
  (p.params.foldl (fun (c : Checking) q => (c.declare (.param q.formal) .parameter).2)
    { c with scope := .empty }).block p.body

/-- With a procedure that can be called; one whose name is taken is found wrong. -/
def register (c : Checking) (p : Procedure) : Checking :=
  match c.procedures.register p.entry with
  | .ok procedures => { c with procedures }
  | .error e       => c.report (.dupSymbol e.name .procedure e.loc)

/-- A procedure: its body, its name, its returns, and what stands behind them. -/
def procedure (c : Checking) (p : Procedure) : Checking :=
  let c := (c.body p).register p
  { c with found := c.found ++ p.returnProblems c.types ++ p.unreachable }

end Checking

/-! ### Scripts -/

/-- Uses of the analysis that are wrong whatever the script. -/
inductive Misuse where
  /-- There is no script. -/
  | noScript
  /-- There is no call graph of a script with errors. -/
  | scriptHasErrors (count : Nat)
  /-- A type is written that there is not. -/
  | unknownType (name : String) (loc : Span)
  deriving DecidableEq

/-- The wording of a misuse. -/
def Misuse.message : Misuse → String
  | .noScript => "no script to analyze; call `with_script` first"
  | .scriptHasErrors count =>
      "cannot build a call graph: the script has " ++ toString count ++ " error(s)"
  | .unknownType name loc => "unknown type `" ++ name ++ "` at " ++ loc.render

/-- A script without errors, with what was learnt about it. -/
structure CheckedScript where
  script : Script
  procedures : ProcedureTable
  types : ExprTypes

namespace Script

/-- The first type written in the script that there is not. -/
def unknownType? (s : Script) : Option TypeName :=
  s.typeNames.find? fun a => a.ty?.isNone

/-- A script in which every type is known. -/
def validate (s : Script) : Except Misuse Unit :=
  match s.unknownType? with
  | some a => .error (.unknownType a.name a.span)
  | none   => .ok ()

/-- All procedures, one after the other. -/
def checking (s : Script) : Checking := s.procedures.foldl Checking.procedure .start

/-- The checked script, or what is wrong with it. -/
def check (s : Script) : Except Misuse (Except (List Diagnostic) CheckedScript) := do
  s.validate
  let c := s.checking
  return Diagnostic.settle c.found ⟨s, c.procedures, c.types⟩

end Script

end ProcScript
