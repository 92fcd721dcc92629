import Mathlib.Data.List.Nodup
import ProcScript.Proofs.Check.Preorder

/-!
# Check — well-typed scripts

When a script is right, said without the checker.  A place in a procedure sees the declarations
met before it, its `Env`: the parameters and then the variables of every earlier statement,
those inside blocks included.  `Env.sites` pairs each statement of a list with its `Env`.  In
an `Env`, literals and variables have a type, and every other expression has the type `error`
(`Expr.typeIn`).

A script is well typed (`Script.WellTyped`) if its types have known names, its procedures have
different names, and each procedure is well typed after those before it
(`Procedure.WellTyped`): its declarations have different names, each of its statements fits
(`Stmt.Fits`), and it returns as its type asks (`Procedure.Returns`).
-/

namespace ProcScript

/-! ### Declarations -/

/-- A parameter or a variable, as it is declared. -/
structure Decl where
  name : String
  symbol : SymbolKind
  type : Ty
  loc : Span
  deriving DecidableEq

/-- The type of a variable; a parameter has none that expressions could have. -/
def Decl.varType? (d : Decl) : Option Ty := if d.symbol = .variable then some d.type else none

def Param.decl (q : Param) : Decl := ⟨q.name, .parameter, q.typeName.ty, q.span⟩

/-- What the statement itself declares. -/
def Stmt.decls : Stmt → List Decl
  | .varDef name typeName _ span => [⟨name, .variable, typeName.ty, span⟩]
  | .ret .. | .call .. | .assign .. | .ifThen .. | .ifElse .. | .whileDo .. => []

/-- What the statement and those inside it declare. -/
def Stmt.allDecls (s : Stmt) : List Decl := s.preorder.flatMap Stmt.decls

/-- The declarations met before a place, oldest first. -/
abbrev Env := List Decl

namespace Env

/-- The declaration that `name` means: the oldest. -/
def lookup (env : Env) (name : String) : Option Decl := env.find? fun d => d.name = name

/-- The type of the variable that `name` means. -/
def varType? (env : Env) (name : String) : Option Ty := (env.lookup name).bind Decl.varType?

/-- The declared names. -/
def names (env : Env) : List String := env.map Decl.name

theorem lookup_append (env env' : Env) (name : String) :
    Env.lookup (env ++ env') name = (env.lookup name).or (env'.lookup name) :=
  List.find?_append

theorem lookup_eq_none_iff {env : Env} {name : String} :
    env.lookup name = none ↔ name ∉ env.names := by
  simp [lookup, names]

section
variable {α : Type} {own : α → List Decl} {env : Env}

/-- What is met, each with what is declared before it; `own` says what one adds. -/
def sites (own : α → List Decl) (env : Env) : List α → List (Env × α)
  | []      => []
  | x :: xs => (env, x) :: sites own (env ++ own x) xs

/-- A site is a split of the list. -/
theorem mem_sites {xs : List α} {site : Env × α} :
    site ∈ sites own env xs ↔
      ∃ before after, xs = before ++ site.2 :: after ∧ site.1 = env ++ before.flatMap own := by
  induction xs generalizing env with
  | nil => simp [sites]
  | cons x xs ih =>
      simp only [sites, List.mem_cons, ih]
      -- The site is the first one exactly if nothing stands before it.
      constructor
      · rintro (rfl | ⟨before, after, rfl, h⟩)
        · exact ⟨[], xs, rfl, by simp⟩
        · exact ⟨x :: before, after, rfl, by simp [h]⟩
      · rintro ⟨before, after, hs, h⟩
        cases before with
        | nil =>
            obtain ⟨rfl, rfl⟩ := List.cons.inj hs
            exact .inl (Prod.ext (by simpa using h) rfl)
        | cons b before =>
            obtain ⟨rfl, rfl⟩ := List.cons.inj hs
            exact .inr ⟨before, after, rfl, by simpa using h⟩

theorem sites_append (xs ys : List α) :
    sites own env (xs ++ ys) = sites own env xs ++ sites own (env ++ xs.flatMap own) ys := by
  induction xs generalizing env with
  | nil => simp [sites]
  | cons x xs ih => simp [sites, ih]

/-- Names are different exactly if each is new where it is declared. -/
theorem nodup_names_iff (hown : ∀ x, (Env.names (own x)).Nodup) (h : env.names.Nodup)
    (xs : List α) :
    (Env.names (env ++ xs.flatMap own)).Nodup ↔
      ∀ site ∈ sites own env xs, ∀ d ∈ own site.2, d.name ∉ site.1.names := by
  induction xs generalizing env with
  | nil => simpa [sites] using h
  | cons x xs ih =>
      -- `own x` repeats no name itself, so only those of `env` are in its way.
      have hx : (Env.names (env ++ own x)).Nodup ↔ ∀ d ∈ own x, d.name ∉ env.names := by
        simp only [names, List.map_append, List.nodup_append'] at h ⊢
        constructor
        · exact fun hd d hd' he => hd.2.2 he (List.mem_map_of_mem hd')
        · refine fun hd => ⟨h, hown x, fun name he hx => ?_⟩
          obtain ⟨d, hd', rfl⟩ := List.mem_map.mp hx
          exact hd d hd' he
      simp only [sites, List.mem_cons, forall_eq_or_imp, List.flatMap_cons, ← List.append_assoc]
      constructor
      · intro hn
        have hx' : (Env.names (env ++ own x)).Nodup :=
          hn.sublist ((List.sublist_append_left _ _).map Decl.name)
        exact ⟨hx.mp hx', (ih hx').mp hn⟩
      · exact fun hn => (ih (hx.mpr hn.1)).mpr hn.2

end

/-- A statement of a block is met with the same declarations before it, whether those inside its
siblings are listed or not. -/
theorem mem_sites_preorder {env : Env} {ss : List Stmt} {site : Env × Stmt}
    (h : site ∈ sites Stmt.allDecls env ss) :
    site ∈ sites Stmt.decls env (Block.preorder ss) := by
  induction ss generalizing env with
  | nil => cases h
  | cons s ss ih =>
      rw [Block.preorder, sites_append]
      rcases List.mem_cons.mp h with rfl | h
      · obtain ⟨inner, hs⟩ := s.preorder_eq_cons
        rw [hs]
        exact List.mem_append_left _ List.mem_cons_self
      · exact List.mem_append_right _ (ih h)

end Env

/-! ### Types of expressions -/

/-- The type of an expression. -/
def Expr.typeIn (env : Env) : Expr → Ty
  | .var name _ _                      => (env.varType? name).getD .error
  | .bool ..                           => .bool
  | .int ..                            => .int32
  | .binary .. | .unary .. | .paren .. => .error

/-! ### Well-typed statements, procedures and scripts -/

/-- The statement itself is right: an initial or assigned value has the type of its variable, and
a call is of a name declared in the procedure or of an earlier procedure, with arguments of the
types of the parameters. -/
def Stmt.Fits (earlier : List Procedure) (env : Env) : Stmt → Prop
  | .varDef _ typeName init _ => ∀ e ∈ init, e.typeIn env = typeName.ty
  | .assign target value _    =>
      ∀ type, env.varType? target = some type → value.typeIn env = type
  | .call callee args _       =>
      callee ∈ env.names ∨ ∃ p ∈ earlier, p.name = callee ∧
        p.params.map (fun q => q.typeName.ty) = args.map (Expr.typeIn env)
  | .ret .. | .ifThen .. | .ifElse .. | .whileDo .. => True

namespace Procedure

/-- What is declared before the statements behind `before`. -/
def env (p : Procedure) (before : List Stmt) : Env :=
  p.params.map Param.decl ++ before.flatMap Stmt.decls

/-- No statement of the body is a return if the procedure gives nothing back; else the last one
is, and no other, and it carries a value of the type of the procedure. -/
def Returns (p : Procedure) : Prop :=
  if p.returns.ty = .void then ∀ s ∈ p.body, s.isReturn = false
  else ∃ front value span, p.body = front ++ [.ret (some value) span] ∧
    (∀ s ∈ front, s.isReturn = false) ∧
    value.typeIn (p.env (Block.preorder front)) = p.returns.ty

/-- The procedure is right behind those of `earlier`. -/
structure WellTyped (earlier : List Procedure) (p : Procedure) : Prop where
  distinct : (p.env (Block.preorder p.body)).names.Nodup
  fits : ∀ before s after, Block.preorder p.body = before ++ s :: after →
    s.Fits earlier (p.env before)
  returns : p.Returns

end Procedure

/-- The script is right. -/
structure Script.WellTyped (s : Script) : Prop where
  known : ∀ a ∈ s.typeNames, a.name ∈ ["Int32", "Bool", "Void", "Error"]
  distinct : (s.procedures.map Procedure.name).Nodup
  procedures : ∀ earlier p later, s.procedures = earlier ++ p :: later → p.WellTyped earlier

end ProcScript
