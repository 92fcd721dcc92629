import Mathlib.Logic.Function.Basic
import ProcScript.Check

/-!
# Check — a tree in other words

A `Wording` says what to put for the names of a tree, those of procedures, parameters and variables
alike, and what to put for the types that are written in it.  **Checking goes along with it**
(`Script.checking_reword`) if no two names become one and if each type that is written in the
script still means what it means.  A name is only ever compared with another name, and a type that
is written is only ever asked what it means, so each rule goes through as it is, and the names in
the state are the new ones.
-/

namespace ProcScript

/-- What to put for the names and for the types that are written in a tree. -/
structure Wording where
  name : String → String
  typeName : TypeName → TypeName

/-! ### Trees -/

/-- The expression with other names. -/
def Expr.rename (f : String → String) : Expr → Expr
  | .var name id span             => .var (f name) id span
  | .bool value id span           => .bool value id span
  | .int value id span            => .int value id span
  | .binary op left right id span => .binary op (left.rename f) (right.rename f) id span
  | .unary op operand id span     => .unary op (operand.rename f) id span
  | .paren inner id span          => .paren (inner.rename f) id span

def Param.reword (w : Wording) (q : Param) : Param := ⟨w.name q.name, w.typeName q.typeName, q.span⟩

mutual

def Stmt.reword (w : Wording) : Stmt → Stmt
  | .varDef name typeName init span   =>
      .varDef (w.name name) (w.typeName typeName) (init.map (Expr.rename w.name)) span
  | .ret value span                   => .ret (value.map (Expr.rename w.name)) span
  | .call callee args span            => .call (w.name callee) (args.map (Expr.rename w.name)) span
  | .assign target value span         => .assign (w.name target) (value.rename w.name) span
  | .ifThen condition body span       =>
      .ifThen (condition.rename w.name) (Block.reword w body) span
  | .ifElse condition body other span =>
      .ifElse (condition.rename w.name) (Block.reword w body) (Block.reword w other) span
  | .whileDo condition body span      =>
      .whileDo (condition.rename w.name) (Block.reword w body) span

def Block.reword (w : Wording) : List Stmt → List Stmt
  | []      => []
  | s :: ss => s.reword w :: Block.reword w ss

end

def Procedure.reword (w : Wording) (p : Procedure) : Procedure :=
  ⟨w.name p.name, p.params.map (Param.reword w), w.typeName p.returns, Block.reword w p.body,
    p.span⟩

/-- The script in other words. -/
def Script.reword (w : Wording) (s : Script) : Script :=
  ⟨s.source, s.procedures.map (Procedure.reword w), s.span⟩

@[simp] theorem Expr.id_rename (f : String → String) (e : Expr) : (e.rename f).id = e.id := by
  cases e <;> rfl

@[simp] theorem Expr.span_rename (f : String → String) (e : Expr) :
    (e.rename f).span = e.span := by
  cases e <;> rfl

@[simp] theorem Stmt.isReturn_reword (w : Wording) (s : Stmt) :
    (s.reword w).isReturn = s.isReturn := by
  cases s <;> rfl

@[simp] theorem Stmt.span_reword (w : Wording) (s : Stmt) : (s.reword w).span = s.span := by
  cases s <;> rfl

theorem Block.reword_eq_map (w : Wording) (ss : List Stmt) :
    Block.reword w ss = ss.map (Stmt.reword w) := by
  induction ss with
  | nil => rfl
  | cons s ss ih => rw [Block.reword, ih, List.map_cons]

mutual

theorem Stmt.typeNames_reword (w : Wording) : ∀ s : Stmt,
    (s.reword w).typeNames = s.typeNames.map w.typeName
  | .varDef .. | .ret .. | .call .. | .assign .. => rfl
  | .ifThen _ body _ | .whileDo _ body _ => Block.typeNames_reword w body
  | .ifElse _ body other _ => by
      simp only [Stmt.reword, Stmt.typeNames, List.map_append, Block.typeNames_reword w body,
        Block.typeNames_reword w other]

theorem Block.typeNames_reword (w : Wording) : ∀ ss : List Stmt,
    Block.typeNames (Block.reword w ss) = (Block.typeNames ss).map w.typeName
  | [] => rfl
  | s :: ss => by
      simp only [Block.reword, Block.typeNames, List.map_append, Stmt.typeNames_reword w s,
        Block.typeNames_reword w ss]

end

theorem Script.typeNames_reword (w : Wording) (s : Script) :
    (s.reword w).typeNames = s.typeNames.map w.typeName := by
  simp [typeNames, reword, List.flatMap_map, List.map_flatMap, Procedure.typeNames,
    Procedure.reword, Block.typeNames_reword, Param.reword, Function.comp_def]

mutual

theorem Stmt.callees_reword (w : Wording) : ∀ s : Stmt,
    (s.reword w).callees = s.callees.map w.name
  | .varDef .. | .ret .. | .call .. | .assign .. => rfl
  | .ifThen _ body _ | .whileDo _ body _ => Block.callees_reword w body
  | .ifElse _ body other _ => by
      simp only [Stmt.reword, Stmt.callees, List.map_append, Block.callees_reword w body,
        Block.callees_reword w other]

theorem Block.callees_reword (w : Wording) : ∀ ss : List Stmt,
    Block.callees (Block.reword w ss) = (Block.callees ss).map w.name
  | [] => rfl
  | s :: ss => by
      simp only [Block.reword, Block.callees, List.map_append, Stmt.callees_reword w s,
        Block.callees_reword w ss]

end

/-! ### The state of a run -/

def Formal.rename (f : String → String) (q : Formal) : Formal := ⟨f q.name, q.type, q.loc⟩

def Binding.rename (f : String → String) : Binding → Binding
  | .param q                       => .param (q.rename f)
  | .var name type loc initialized => .var (f name) type loc initialized

def Scope.rename (f : String → String) (s : Scope) : Scope := ⟨s.bindings.map (Binding.rename f)⟩

def ProcedureEntry.rename (f : String → String) (e : ProcedureEntry) : ProcedureEntry :=
  ⟨f e.name, e.params.map (Formal.rename f), e.returns, e.loc⟩

def ProcedureTable.rename (f : String → String) (t : ProcedureTable) : ProcedureTable :=
  ⟨t.entries.map (ProcedureEntry.rename f)⟩

/-- The diagnostic with the name in it, if any, another one. -/
def Diagnostic.rename (f : String → String) : Diagnostic → Diagnostic
  | .dupSymbol name symbol loc            => .dupSymbol (f name) symbol loc
  | .noSuchSymbol name loc                => .noSuchSymbol (f name) loc
  | .typeMismatch expected actual loc     => .typeMismatch expected actual loc
  | .argCountMismatch expected actual loc => .argCountMismatch expected actual loc
  | .returnCountMismatch expected loc     => .returnCountMismatch expected loc
  | .unreachable reason loc               => .unreachable reason loc
  | .syntaxError error loc                => .syntaxError error loc

/-- The state with other names; types are kept by number. -/
def Checking.rename (f : String → String) (c : Checking) : Checking :=
  ⟨c.scope.rename f, c.procedures.rename f, c.types, c.found.map (Diagnostic.rename f)⟩

variable {f : String → String}

@[simp] theorem Binding.name_rename (b : Binding) : (b.rename f).name = f b.name := by
  cases b <;> rfl

@[simp] theorem Binding.varType?_rename (b : Binding) : (b.rename f).varType? = b.varType? := by
  cases b <;> rfl

@[simp] theorem Binding.loc_rename (b : Binding) : (b.rename f).loc = b.loc := by
  cases b <;> rfl

theorem Binding.assigned_rename (b : Binding) : (b.rename f).assigned = b.assigned.rename f := by
  cases b <;> rfl

theorem Binding.rename_id (b : Binding) : b.rename id = b := by
  cases b <;> rfl

theorem ProcedureEntry.rename_id (e : ProcedureEntry) : e.rename id = e := by
  have hparams : e.params.map (Formal.rename id) = e.params := List.map_id' e.params
  simp only [rename, hparams, id_eq]

theorem Diagnostic.rename_id (d : Diagnostic) : d.rename id = d := by
  cases d <;> rfl

theorem Checking.rename_id (c : Checking) : c.rename id = c := by
  simp [rename, Scope.rename, ProcedureTable.rename, List.map_id'' Binding.rename_id,
    List.map_id'' ProcedureEntry.rename_id, List.map_id'' Diagnostic.rename_id]

section
variable (hf : Function.Injective f)
include hf

namespace Scope

variable (s : Scope) (name : String)

/-- What the new name is bound to is what the old one was. -/
theorem find?_rename : (s.rename f).find? (f name) = (s.find? name).map (Binding.rename f) := by
  have hkey : (fun b : Binding => decide (b.name = f name)) ∘ Binding.rename f =
      fun b => decide (b.name = name) := by
    funext b
    simp [hf.eq_iff]
  rw [find?, find?, rename, List.find?_map, hkey]

theorem contains_rename : (s.rename f).contains (f name) = s.contains name := by
  simp [contains, find?_rename hf]

theorem markInitialized_rename :
    (s.rename f).markInitialized (f name) = (s.markInitialized name).rename f := by
  have hb (b : Binding) : (if (b.rename f).name = f name then (b.rename f).assigned
      else b.rename f) = (if b.name = name then b.assigned else b).rename f := by
    simp only [Binding.name_rename, hf.eq_iff]
    split
    · exact b.assigned_rename
    · rfl
  simp only [markInitialized, rename, List.map_map, Function.comp_def, hb]

end Scope

theorem ProcedureTable.find?_rename (t : ProcedureTable) (name : String) :
    (t.rename f).find? (f name) = (t.find? name).map (ProcedureEntry.rename f) := by
  have hkey : (fun e : ProcedureEntry => decide (e.name = f name)) ∘ ProcedureEntry.rename f =
      fun e => decide (e.name = name) := by
    funext e
    simp [ProcedureEntry.rename, hf.eq_iff]
  rw [find?, find?, rename, List.find?_map, hkey]

theorem ProcedureTable.contains_rename (t : ProcedureTable) (name : String) :
    (t.rename f).contains (f name) = t.contains name := by
  simp [contains, find?_rename hf]

end

namespace Checking

variable (c : Checking)

/-! ### The rules -/

theorem report_rename (d : Diagnostic) :
    (c.rename f).report (d.rename f) = (c.report d).rename f := by
  simp [report, rename]

theorem require_rename (expected : Ty) (id : ExprId) (loc : Span) :
    (c.rename f).require expected id loc = (c.require expected id loc).rename f := by
  have htypes : (c.rename f).types = c.types := rfl
  rw [require, require, htypes]
  split
  · rfl
  · exact c.report_rename (.typeMismatch ..)

theorem foldl_require_rename (args : List (Formal × Expr)) (span : Span) :
    (args.map (Prod.map (Formal.rename f) (Expr.rename f))).foldl
        (fun c arg => c.require arg.1.type arg.2.id span) (c.rename f) =
      (args.foldl (fun c arg => c.require arg.1.type arg.2.id span) c).rename f := by
  induction args generalizing c with
  | nil => rfl
  | cons arg args ih =>
      have hone : (c.rename f).require (arg.1.rename f).type (arg.2.rename f).id span =
          (c.require arg.1.type arg.2.id span).rename f := by
        rw [Expr.id_rename]
        exact c.require_rename arg.1.type arg.2.id span
      simp only [List.map_cons, List.foldl_cons, Prod.map_fst, Prod.map_snd, hone, ih]

section
variable (hf : Function.Injective f)
include hf

theorem varType?_rename (name : String) : (c.rename f).varType? (f name) = c.varType? name := by
  have hscope : (c.rename f).scope = c.scope.rename f := rfl
  have htype : Binding.varType? ∘ Binding.rename f = Binding.varType? :=
    funext Binding.varType?_rename
  rw [varType?, varType?, hscope, Scope.find?_rename hf, Option.bind_map, htype]

theorem declare_rename (b : Binding) (symbol : SymbolKind) :
    (c.rename f).declare (b.rename f) symbol =
      ((c.declare b symbol).1, (c.declare b symbol).2.rename f) := by
  simp only [declare, Scope.define, rename, Binding.name_rename, Scope.find?_rename hf]
  cases c.scope.find? b.name with
  | none => simp [Scope.rename]
  | some first => simp [report, Diagnostic.rename]

theorem resolve_rename (e : Expr) : (c.rename f).resolve (e.rename f) = (c.resolve e).rename f := by
  induction e generalizing c with
  | var name id span =>
      simp only [Expr.rename, resolve, varType?_rename c hf]
      cases c.varType? name <;> rfl
  | bool value id span | int value id span => rfl
  | binary op left right id span ihl ihr => simp only [Expr.rename, resolve, ihl, ihr]
  | unary op operand id span ih => simp only [Expr.rename, resolve, ih]
  | paren inner id span ih => simp only [Expr.rename, resolve, ih]

theorem resolveAll_rename (es : List Expr) :
    (c.rename f).resolveAll (es.map (Expr.rename f)) = (c.resolveAll es).rename f := by
  induction es generalizing c with
  | nil => rfl
  | cons e es ih =>
      show ((c.rename f).resolve (e.rename f)).resolveAll (es.map (Expr.rename f)) =
        ((c.resolve e).resolveAll es).rename f
      rw [resolve_rename c hf, ih]

theorem varDef_rename (name : String) (type : Ty) (init : Option Expr) (span : Span) :
    (c.rename f).varDef (f name) type (init.map (Expr.rename f)) span =
      (c.varDef name type init span).rename f := by
  have hinit : (init.map (Expr.rename f)).toList = init.toList.map (Expr.rename f) := by
    cases init <;> rfl
  rw [varDef, varDef, hinit, resolveAll_rename c hf, Option.isSome_map]
  have hd := (c.resolveAll init.toList).declare_rename hf (.var name type span init.isSome)
    .variable
  simp only [Binding.rename] at hd
  rw [hd]
  obtain ⟨new, c'⟩ := (c.resolveAll init.toList).declare (.var name type span init.isSome) .variable
  cases new with
  | false => rfl
  | true =>
      cases init with
      | none => rfl
      | some e => simpa using c'.require_rename type e.id e.span

theorem assign_rename (target : String) (value : Expr) :
    (c.rename f).assign (f target) (value.rename f) = (c.assign target value).rename f := by
  simp only [assign, resolve_rename c hf, varType?_rename _ hf]
  cases (c.resolve value).varType? target with
  | none => rfl
  | some type =>
      simp only [Expr.id_rename, Expr.span_rename, require_rename]
      simp only [rename, Scope.markInitialized_rename hf]

theorem call_rename (callee : String) (args : List Expr) (span : Span) :
    (c.rename f).call (f callee) (args.map (Expr.rename f)) span =
      (c.call callee args span).rename f := by
  simp only [call, resolveAll_rename c hf, List.length_map]
  have hscope : ((c.resolveAll args).rename f).scope.contains (f callee) =
      (c.resolveAll args).scope.contains callee := Scope.contains_rename hf _ _
  have hfind : ((c.resolveAll args).rename f).procedures.find? (f callee) =
      ((c.resolveAll args).procedures.find? callee).map (ProcedureEntry.rename f) :=
    ProcedureTable.find?_rename hf _ _
  rw [hscope, hfind]
  split
  · rfl
  · cases (c.resolveAll args).procedures.find? callee with
    | none => exact report_rename _ (.noSuchSymbol ..)
    | some p =>
        have harity : (p.rename f).arity = p.arity := by
          simp [ProcedureEntry.arity, ProcedureEntry.rename]
        simp only [Option.map_some, harity]
        split
        · exact report_rename _ (.argCountMismatch ..)
        · have hzip : (p.rename f).params.zip (args.map (Expr.rename f)) =
              (p.params.zip args).map (Prod.map (Formal.rename f) (Expr.rename f)) :=
            List.zip_map ..
          rw [hzip]
          exact foldl_require_rename _ _ _

end

end Checking

/-! ### Statements and procedures -/

/-- Different names stay different, and the types that are given still mean what they mean. -/
structure Wording.Keeps (w : Wording) (as : List TypeName) : Prop where
  names : Function.Injective w.name
  types : ∀ a ∈ as, (w.typeName a).ty = a.ty

namespace Wording.Keeps

variable {w : Wording} {as bs : List TypeName}

theorem left (h : w.Keeps (as ++ bs)) : w.Keeps as :=
  ⟨h.names, fun a ha => h.types a (List.mem_append_left bs ha)⟩

theorem right (h : w.Keeps (as ++ bs)) : w.Keeps bs :=
  ⟨h.names, fun a ha => h.types a (List.mem_append_right as ha)⟩

end Wording.Keeps

variable {w : Wording}

mutual

theorem Checking.stmt_reword (c : Checking) : ∀ s : Stmt, w.Keeps s.typeNames →
    (c.rename w.name).stmt (s.reword w) = (c.stmt s).rename w.name
  | .varDef name typeName init span, h => by
      have hty : (w.typeName typeName).ty = typeName.ty := h.types typeName List.mem_cons_self
      simp only [Stmt.reword, stmt, hty]
      exact c.varDef_rename h.names ..
  | .ret none span, _ => rfl
  | .ret (some e) span, h => c.resolveAll_rename h.names [e]
  | .call callee args span, h => c.call_rename h.names ..
  | .assign target value span, h => c.assign_rename h.names ..
  | .ifThen condition body span, h | .whileDo condition body span, h => by
      simp only [Stmt.reword, stmt, c.resolve_rename h.names, block_reword _ body h]
  | .ifElse condition body other span, h => by
      simp only [Stmt.reword, stmt, c.resolve_rename h.names, block_reword _ body h.left,
        block_reword _ other h.right]

theorem Checking.block_reword (c : Checking) : ∀ ss : List Stmt, w.Keeps (Block.typeNames ss) →
    (c.rename w.name).block (Block.reword w ss) = (c.block ss).rename w.name
  | [], _ => rfl
  | s :: ss, h => by
      simp only [Block.reword, block, stmt_reword _ s h.left, block_reword _ ss h.right]

end

namespace Procedure

variable (p : Procedure)

theorem returns_mem_typeNames : p.returns ∈ p.typeNames := by simp [typeNames]

theorem entry_reword (h : w.Keeps p.typeNames) : (p.reword w).entry = p.entry.rename w.name := by
  have hparams : (p.params.map (Param.reword w)).map Param.formal =
      (p.params.map Param.formal).map (Formal.rename w.name) := by
    rw [List.map_map, List.map_map]
    refine List.map_congr_left fun q hq => ?_
    have hty : (w.typeName q.typeName).ty = q.typeName.ty :=
      h.left.left.types _ (List.mem_map_of_mem hq)
    simp only [Function.comp_apply, Param.reword, Param.formal, Formal.rename, hty]
  have hty : (w.typeName p.returns).ty = p.returns.ty := h.types _ p.returns_mem_typeNames
  simp only [entry, reword, hparams, hty, ProcedureEntry.rename]

theorem returnProblem?_reword (hty : (w.typeName p.returns).ty = p.returns.ty) (types : ExprTypes)
    (s : Stmt) : (p.reword w).returnProblem? types (s.reword w) =
      (p.returnProblem? types s).map (Diagnostic.rename w.name) := by
  have hty : (p.reword w).returns.ty = p.returns.ty := hty
  cases s with
  | ret value span =>
      cases value with
      | none =>
          simp only [Stmt.reword, Option.map_none, returnProblem?, hty]
          split <;> rfl
      | some e =>
          simp only [Stmt.reword, Option.map_some, returnProblem?, hty, Expr.id_rename]
          split <;> rfl
  | varDef | call | assign | ifThen | ifElse | whileDo => rfl

theorem returnProblems_reword (hty : (w.typeName p.returns).ty = p.returns.ty)
    (types : ExprTypes) : (p.reword w).returnProblems types =
      (p.returnProblems types).map (Diagnostic.rename w.name) := by
  have hbody : (p.reword w).body = p.body.map (Stmt.reword w) := Block.reword_eq_map w p.body
  have hcount : (p.reword w).returnCount = p.returnCount :=
    congrArg (fun type => if type = Ty.void then 0 else 1) hty
  have hspan : (p.reword w).span = p.span := rfl
  simp only [returnProblems, hbody, hcount, hspan, List.filterMap_map, List.countP_map,
    Function.comp_def, returnProblem?_reword p hty, Stmt.isReturn_reword, List.map_append,
    List.map_filterMap]
  split <;> rfl

theorem unreachable_reword :
    (p.reword w).unreachable = p.unreachable.map (Diagnostic.rename w.name) := by
  have hbody : (p.reword w).body = p.body.map (Stmt.reword w) := Block.reword_eq_map w p.body
  simp only [unreachable, hbody, List.dropWhile_map, ← List.map_tail, List.map_map,
    Function.comp_def, Stmt.isReturn_reword, Stmt.span_reword, Diagnostic.rename]

end Procedure

namespace Checking

variable (c : Checking)

theorem params_reword (qs : List Param) (h : w.Keeps (qs.map Param.typeName)) :
    (qs.map (Param.reword w)).foldl
        (fun (c : Checking) q => (c.declare (.param q.formal) .parameter).2) (c.rename w.name) =
      (qs.foldl (fun (c : Checking) q => (c.declare (.param q.formal) .parameter).2)
        c).rename w.name := by
  induction qs generalizing c with
  | nil => rfl
  | cons q qs ih =>
      have hty : (w.typeName q.typeName).ty = q.typeName.ty := h.types _ List.mem_cons_self
      have hformal : (q.reword w).formal = q.formal.rename w.name := by
        simp only [Param.reword, Param.formal, Formal.rename, hty]
      have hd := c.declare_rename h.names (.param q.formal) .parameter
      have hrest : w.Keeps (qs.map Param.typeName) :=
        ⟨h.names, fun a ha => h.types a (List.mem_cons_of_mem _ ha)⟩
      rw [List.map_cons, List.foldl_cons, List.foldl_cons, hformal, ← ih _ hrest]
      exact congrArg (fun d : Bool × Checking => (qs.map (Param.reword w)).foldl
        (fun (c : Checking) q => (c.declare (.param q.formal) .parameter).2) d.2) hd

section
variable {p : Procedure} (h : w.Keeps p.typeNames)
include h

theorem body_reword : (c.rename w.name).body (p.reword w) = (c.body p).rename w.name := by
  rw [body, body, ← block_reword _ _ h.right, ← params_reword _ _ h.left.left]
  rfl

theorem register_reword :
    (c.rename w.name).register (p.reword w) = (c.register p).rename w.name := by
  have hentry : (p.reword w).entry = p.entry.rename w.name := p.entry_reword h
  have hcontains : (c.rename w.name).procedures.contains (w.name p.entry.name) =
      c.procedures.contains p.entry.name := ProcedureTable.contains_rename h.names _ _
  have hname : (p.entry.rename w.name).name = w.name p.entry.name := rfl
  simp only [register, ProcedureTable.register, hentry, hname, hcontains]
  cases c.procedures.contains p.entry.name with
  | true => exact c.report_rename (.dupSymbol ..)
  | false => simp [rename, ProcedureTable.rename]

theorem procedure_reword :
    (c.rename w.name).procedure (p.reword w) = (c.procedure p).rename w.name := by
  have hty : (w.typeName p.returns).ty = p.returns.ty := h.types _ p.returns_mem_typeNames
  simp only [procedure, c.body_reword h, register_reword _ h]
  simp only [rename, p.returnProblems_reword hty, p.unreachable_reword, List.map_append]

end

theorem procedures_reword (ps : List Procedure) (h : w.Keeps (ps.flatMap Procedure.typeNames)) :
    (ps.map (Procedure.reword w)).foldl procedure (c.rename w.name) =
      (ps.foldl procedure c).rename w.name := by
  induction ps generalizing c with
  | nil => rfl
  | cons p ps ih =>
      rw [List.flatMap_cons] at h
      rw [List.map_cons, List.foldl_cons, List.foldl_cons, ← ih _ h.right,
        c.procedure_reword h.left]

end Checking

/-! ### Scripts -/

/-- **Checking goes along with other words** for what is written. -/
theorem Script.checking_reword (s : Script) (h : w.Keeps s.typeNames) :
    (s.reword w).checking = s.checking.rename w.name :=
  Checking.procedures_reword .start s.procedures h

end ProcScript
