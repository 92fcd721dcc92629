import ProcScript.Check
import ProcScript.Proofs.Calls.Edges
import ProcScript.Proofs.Syntax.Relabel

/-!
# Check — a tree under other spans

**Checking is blind to places** (`Script.check_relabel`): under a labelling that keeps the
numbers, a script is found to be what it is found to be, and each place in the answer is the
label of the place before.  No rule compares spans, so each rule goes through as it is: the
state of a run is relabelled as a whole, and types are recorded under the same numbers.  The
call graph has no places at all (`Script.callGraph_relabel`).
-/

namespace ProcScript

/-- Numbers stay as they are. -/
def Labelling.KeepsIds (m : Labelling) : Prop := ∀ i, m.id i = i

theorem Labelling.unplaced_keepsIds : Labelling.unplaced.KeepsIds := fun _ => rfl

/-! ### The state of a run -/

def Formal.relabel (m : Labelling) (f : Formal) : Formal := ⟨f.name, f.type, m.span f.loc⟩

def Binding.relabel (m : Labelling) : Binding → Binding
  | .param f                       => .param (f.relabel m)
  | .var name type loc initialized => .var name type (m.span loc) initialized

def Scope.relabel (m : Labelling) (s : Scope) : Scope := ⟨s.bindings.map (Binding.relabel m)⟩

def ProcedureEntry.relabel (m : Labelling) (e : ProcedureEntry) : ProcedureEntry :=
  ⟨e.name, e.params.map (Formal.relabel m), e.returns, m.span e.loc⟩

def ProcedureTable.relabel (m : Labelling) (t : ProcedureTable) : ProcedureTable :=
  ⟨t.entries.map (ProcedureEntry.relabel m)⟩

/-- The state with other places; types are kept by number. -/
def Checking.relabel (m : Labelling) (c : Checking) : Checking :=
  ⟨c.scope.relabel m, c.procedures.relabel m, c.types, c.found.map (Diagnostic.relabel m)⟩

variable {m : Labelling}

@[simp] theorem Binding.name_relabel (b : Binding) : (b.relabel m).name = b.name := by
  cases b <;> rfl

@[simp] theorem Binding.varType?_relabel (b : Binding) : (b.relabel m).varType? = b.varType? := by
  cases b <;> rfl

@[simp] theorem Binding.loc_relabel (b : Binding) : (b.relabel m).loc = m.span b.loc := by
  cases b <;> rfl

theorem Binding.assigned_relabel (b : Binding) :
    (b.relabel m).assigned = b.assigned.relabel m := by
  cases b <;> rfl

namespace Scope

variable (s : Scope) (name : String)

theorem find?_relabel : (s.relabel m).find? name = (s.find? name).map (Binding.relabel m) := by
  have hname : (fun b : Binding => decide (b.name = name)) ∘ Binding.relabel m =
      fun b => decide (b.name = name) :=
    funext fun b => by rw [Function.comp_apply, Binding.name_relabel]
  rw [find?, relabel, List.find?_map, hname]
  rfl

theorem contains_relabel : (s.relabel m).contains name = s.contains name := by
  simp [contains, find?_relabel]

theorem markInitialized_relabel :
    (s.relabel m).markInitialized name = (s.markInitialized name).relabel m := by
  have hb (b : Binding) : (if b.name = name then (b.relabel m).assigned else b.relabel m) =
      (if b.name = name then b.assigned else b).relabel m := by
    split
    · exact b.assigned_relabel
    · rfl
  simp [markInitialized, relabel, hb]

end Scope

theorem ProcedureTable.find?_relabel (t : ProcedureTable) (name : String) :
    (t.relabel m).find? name = (t.find? name).map (ProcedureEntry.relabel m) := by
  rw [find?, relabel, List.find?_map]
  rfl

theorem ProcedureTable.contains_relabel (t : ProcedureTable) (name : String) :
    (t.relabel m).contains name = t.contains name := by
  simp [contains, find?_relabel]

theorem TypeName.ty_relabel (a : TypeName) : (a.relabel m).ty = a.ty := rfl

theorem Procedure.entry_relabel (p : Procedure) : (p.relabel m).entry = p.entry.relabel m := by
  simp [entry, relabel, ProcedureEntry.relabel, Param.formal, Param.relabel, Formal.relabel,
    TypeName.ty_relabel]

namespace Checking

variable (c : Checking)

/-! ### The rules -/

theorem report_relabel (d : Diagnostic) :
    (c.relabel m).report (d.relabel m) = (c.report d).relabel m := by
  simp [report, relabel]

theorem varType?_relabel (name : String) : (c.relabel m).varType? name = c.varType? name := by
  have hscope : (c.relabel m).scope.find? name = (c.scope.find? name).map (Binding.relabel m) :=
    c.scope.find?_relabel name
  have htype : Binding.varType? ∘ Binding.relabel m = Binding.varType? :=
    funext Binding.varType?_relabel
  rw [varType?, hscope, Option.bind_map, htype]
  rfl

theorem require_relabel (expected : Ty) (id : ExprId) (loc : Span) :
    (c.relabel m).require expected id (m.span loc) = (c.require expected id loc).relabel m := by
  have htypes : (c.relabel m).types = c.types := rfl
  rw [require, require, htypes]
  split
  · rfl
  · exact c.report_relabel (.typeMismatch ..)

theorem declare_relabel (b : Binding) (symbol : SymbolKind) :
    (c.relabel m).declare (b.relabel m) symbol =
      ((c.declare b symbol).1, (c.declare b symbol).2.relabel m) := by
  simp only [declare, Scope.define, relabel, Scope.find?_relabel, Binding.name_relabel]
  cases c.scope.find? b.name with
  | none => simp [Scope.relabel]
  | some first => simp [report, Diagnostic.relabel]

theorem foldl_require_relabel (args : List (Formal × Expr)) (span : Span) (hm : m.KeepsIds) :
    (args.map (Prod.map (Formal.relabel m) (Expr.relabel m))).foldl
        (fun c arg => c.require arg.1.type arg.2.id (m.span span)) (c.relabel m) =
      (args.foldl (fun c arg => c.require arg.1.type arg.2.id span) c).relabel m := by
  induction args generalizing c with
  | nil => rfl
  | cons arg args ih =>
      have hone : (c.relabel m).require (arg.1.relabel m).type (arg.2.relabel m).id (m.span span) =
          (c.require arg.1.type arg.2.id span).relabel m := by
        rw [Expr.id_relabel, hm]
        exact c.require_relabel arg.1.type arg.2.id span
      simp only [List.map_cons, List.foldl_cons, Prod.map_fst, Prod.map_snd, hone, ih]

section
variable (hm : m.KeepsIds)
include hm

theorem resolve_relabel (e : Expr) :
    (c.relabel m).resolve (e.relabel m) = (c.resolve e).relabel m := by
  induction e generalizing c with
  | var name id span =>
      simp only [Expr.relabel, resolve, varType?_relabel, hm id]
      cases c.varType? name <;> rfl
  | bool value id span | int value id span =>
      simp only [Expr.relabel, resolve, hm id]
      rfl
  | binary op left right id span ihl ihr => simp only [Expr.relabel, resolve, ihl, ihr]
  | unary op operand id span ih => simp only [Expr.relabel, resolve, ih]
  | paren inner id span ih => simp only [Expr.relabel, resolve, ih]

theorem resolveAll_relabel (es : List Expr) :
    (c.relabel m).resolveAll (es.map (Expr.relabel m)) = (c.resolveAll es).relabel m := by
  induction es generalizing c with
  | nil => rfl
  | cons e es ih =>
      show ((c.relabel m).resolve (e.relabel m)).resolveAll (es.map (Expr.relabel m)) =
        ((c.resolve e).resolveAll es).relabel m
      rw [resolve_relabel c hm, ih]

theorem varDef_relabel (name : String) (type : Ty) (init : Option Expr) (span : Span) :
    (c.relabel m).varDef name type (init.map (Expr.relabel m)) (m.span span) =
      (c.varDef name type init span).relabel m := by
  have hinit : (init.map (Expr.relabel m)).toList = init.toList.map (Expr.relabel m) := by
    cases init <;> rfl
  rw [varDef, varDef, hinit, resolveAll_relabel c hm, Option.isSome_map]
  have hd := (c.resolveAll init.toList).declare_relabel (m := m)
    (.var name type span init.isSome) .variable
  simp only [Binding.relabel] at hd
  rw [hd]
  obtain ⟨new, c'⟩ := (c.resolveAll init.toList).declare (.var name type span init.isSome) .variable
  cases new with
  | false => rfl
  | true =>
      cases init with
      | none => rfl
      | some e =>
          have hr := c'.require_relabel (m := m) type e.id e.span
          simpa [hm e.id] using hr

theorem assign_relabel (target : String) (value : Expr) :
    (c.relabel m).assign target (value.relabel m) = (c.assign target value).relabel m := by
  simp only [assign, resolve_relabel c hm, varType?_relabel]
  cases (c.resolve value).varType? target with
  | none => rfl
  | some type =>
      have hr := (c.resolve value).require_relabel (m := m) type value.id value.span
      simp only [Expr.id_relabel, hm value.id, Expr.span_relabel, hr]
      simp only [relabel, Scope.markInitialized_relabel]

theorem call_relabel (callee : String) (args : List Expr) (span : Span) :
    (c.relabel m).call callee (args.map (Expr.relabel m)) (m.span span) =
      (c.call callee args span).relabel m := by
  simp only [call, resolveAll_relabel c hm, List.length_map]
  have hscope : ((c.resolveAll args).relabel m).scope.contains callee =
      (c.resolveAll args).scope.contains callee := Scope.contains_relabel _ _
  have hfind : ((c.resolveAll args).relabel m).procedures.find? callee =
      ((c.resolveAll args).procedures.find? callee).map (ProcedureEntry.relabel m) :=
    ProcedureTable.find?_relabel _ _
  rw [hscope, hfind]
  split
  · rfl
  · cases (c.resolveAll args).procedures.find? callee with
    | none => exact report_relabel _ (.noSuchSymbol ..)
    | some p =>
        have harity : (p.relabel m).arity = p.arity := by
          simp [ProcedureEntry.arity, ProcedureEntry.relabel]
        simp only [Option.map_some, harity]
        split
        · exact report_relabel _ (.argCountMismatch ..)
        · have hzip : (p.relabel m).params.zip (args.map (Expr.relabel m)) =
              (p.params.zip args).map (Prod.map (Formal.relabel m) (Expr.relabel m)) :=
            List.zip_map ..
          rw [hzip]
          exact foldl_require_relabel _ _ _ hm

end

mutual

theorem stmt_relabel (hm : m.KeepsIds) (c : Checking) : ∀ s : Stmt,
    (c.relabel m).stmt (s.relabel m) = (c.stmt s).relabel m
  | .varDef name typeName init span => by
      simp only [Stmt.relabel, stmt]
      exact varDef_relabel c hm ..
  | .ret none span => rfl
  | .ret (some e) span => resolveAll_relabel c hm [e]
  | .call callee args span => call_relabel c hm ..
  | .assign target value span => assign_relabel c hm ..
  | .ifThen condition body span | .whileDo condition body span => by
      simp only [Stmt.relabel, stmt, resolve_relabel c hm, block_relabel hm _ body]
  | .ifElse condition body other span => by
      simp only [Stmt.relabel, stmt, resolve_relabel c hm, block_relabel hm _ body,
        block_relabel hm _ other]

theorem block_relabel (hm : m.KeepsIds) (c : Checking) : ∀ ss : List Stmt,
    (c.relabel m).block (Block.relabel m ss) = (c.block ss).relabel m
  | [] => rfl
  | s :: ss => by simp only [Block.relabel, block, stmt_relabel hm _ s, block_relabel hm _ ss]

end

end Checking

/-! ### Returns -/

@[simp] theorem Stmt.isReturn_relabel (s : Stmt) : (s.relabel m).isReturn = s.isReturn := by
  cases s <;> rfl

@[simp] theorem Stmt.span_relabel (s : Stmt) : (s.relabel m).span = m.span s.span := by
  cases s <;> rfl

namespace Procedure

variable (p : Procedure)

theorem returnProblem?_relabel (hm : m.KeepsIds) (types : ExprTypes) (s : Stmt) :
    (p.relabel m).returnProblem? types (s.relabel m) =
      (p.returnProblem? types s).map (Diagnostic.relabel m) := by
  have hty : (p.relabel m).returns.ty = p.returns.ty := rfl
  cases s with
  | ret value span =>
      cases value with
      | none =>
          simp only [Stmt.relabel, Option.map_none, returnProblem?, hty]
          split <;> rfl
      | some e =>
          simp only [Stmt.relabel, Option.map_some, returnProblem?, hty, Expr.id_relabel, hm e.id]
          split <;> rfl
  | varDef | call | assign | ifThen | ifElse | whileDo => rfl

theorem returnProblems_relabel (hm : m.KeepsIds) (types : ExprTypes) :
    (p.relabel m).returnProblems types =
      (p.returnProblems types).map (Diagnostic.relabel m) := by
  have hbody : (p.relabel m).body = p.body.map (Stmt.relabel m) := Block.relabel_eq_map m p.body
  have hcount : (p.relabel m).returnCount = p.returnCount := rfl
  have hspan : (p.relabel m).span = m.span p.span := rfl
  simp only [returnProblems, hbody, hcount, hspan, List.filterMap_map, List.countP_map,
    Function.comp_def, returnProblem?_relabel p hm, Stmt.isReturn_relabel, List.map_append,
    List.map_filterMap]
  split <;> rfl

theorem unreachable_relabel :
    (p.relabel m).unreachable = p.unreachable.map (Diagnostic.relabel m) := by
  have hbody : (p.relabel m).body = p.body.map (Stmt.relabel m) := Block.relabel_eq_map m p.body
  simp only [unreachable, hbody, List.dropWhile_map, ← List.map_tail, List.map_map,
    Function.comp_def, Stmt.isReturn_relabel, Stmt.span_relabel, Diagnostic.relabel]

end Procedure

/-! ### Procedures -/

namespace Checking

variable (c : Checking)

theorem register_relabel (p : Procedure) :
    (c.relabel m).register (p.relabel m) = (c.register p).relabel m := by
  have hentry : (p.relabel m).entry = p.entry.relabel m := p.entry_relabel
  have hcontains : (c.relabel m).procedures.contains p.entry.name =
      c.procedures.contains p.entry.name := ProcedureTable.contains_relabel _ _
  have hname : (p.entry.relabel m).name = p.entry.name := rfl
  simp only [register, ProcedureTable.register, hentry, hname, hcontains]
  cases c.procedures.contains p.entry.name with
  | true => exact c.report_relabel (.dupSymbol ..)
  | false => simp [relabel, ProcedureTable.relabel]

section
variable (hm : m.KeepsIds)
include hm

theorem body_relabel (p : Procedure) :
    (c.relabel m).body (p.relabel m) = (c.body p).relabel m := by
  have hparams (c : Checking) (params : List Param) :
      (params.map (Param.relabel m)).foldl
          (fun (c : Checking) q => (c.declare (.param q.formal) .parameter).2) (c.relabel m) =
        (params.foldl (fun (c : Checking) q => (c.declare (.param q.formal) .parameter).2)
          c).relabel m := by
    induction params generalizing c with
    | nil => rfl
    | cons q qs ih =>
        rw [List.map_cons, List.foldl_cons, List.foldl_cons, ← ih]
        have hd := c.declare_relabel (m := m) (.param q.formal) .parameter
        exact congrArg (fun d : Bool × Checking => (qs.map (Param.relabel m)).foldl
          (fun (c : Checking) q => (c.declare (.param q.formal) .parameter).2) d.2) hd
  rw [body, body, ← block_relabel hm, ← hparams]
  rfl

theorem procedure_relabel (p : Procedure) :
    (c.relabel m).procedure (p.relabel m) = (c.procedure p).relabel m := by
  simp only [procedure, body_relabel c hm, register_relabel]
  simp only [relabel, p.returnProblems_relabel hm, p.unreachable_relabel, List.map_append]

end

end Checking

/-! ### Scripts -/

/-- The procedures of a script with other labels, and its place. -/
def Script.relabel (m : Labelling) (s : Script) : Script :=
  ⟨(m.span s.span).source, s.procedures.map (Procedure.relabel m), m.span s.span⟩

def CheckedScript.relabel (m : Labelling) (c : CheckedScript) : CheckedScript :=
  ⟨c.script.relabel m, c.procedures.relabel m, c.types⟩

def Misuse.relabel (m : Labelling) : Misuse → Misuse
  | .unknownType name loc => .unknownType name (m.span loc)
  | .noScript             => .noScript
  | .scriptHasErrors n    => .scriptHasErrors n

/-- What a check says of a script. -/
abbrev Verdict := Except Misuse (Except (List Diagnostic) CheckedScript)

def Verdict.relabel (m : Labelling) : Verdict → Verdict
  | .error misuse        => .error (misuse.relabel m)
  | .ok (.error found)   => .ok (.error (found.map (Diagnostic.relabel m)))
  | .ok (.ok checked)    => .ok (.ok (checked.relabel m))

mutual

theorem Stmt.typeNames_relabel : ∀ s : Stmt,
    (s.relabel m).typeNames = s.typeNames.map (TypeName.relabel m)
  | .varDef .. | .ret .. | .call .. | .assign .. => rfl
  | .ifThen _ body _ | .whileDo _ body _ => Block.typeNames_relabel body
  | .ifElse _ body other _ => by
      simp only [Stmt.relabel, Stmt.typeNames, List.map_append, Block.typeNames_relabel body,
        Block.typeNames_relabel other]

theorem Block.typeNames_relabel : ∀ ss : List Stmt,
    Block.typeNames (Block.relabel m ss) = (Block.typeNames ss).map (TypeName.relabel m)
  | [] => rfl
  | s :: ss => by
      simp only [Block.relabel, Block.typeNames, List.map_append, Stmt.typeNames_relabel s,
        Block.typeNames_relabel ss]

end

mutual

theorem Stmt.callees_relabel : ∀ s : Stmt, (s.relabel m).callees = s.callees
  | .varDef .. | .ret .. | .call .. | .assign .. => rfl
  | .ifThen _ body _ | .whileDo _ body _ => Block.callees_relabel body
  | .ifElse _ body other _ => by
      simp only [Stmt.relabel, Stmt.callees, Block.callees_relabel body,
        Block.callees_relabel other]

theorem Block.callees_relabel : ∀ ss : List Stmt,
    Block.callees (Block.relabel m ss) = Block.callees ss
  | [] => rfl
  | s :: ss => by
      simp only [Block.relabel, Block.callees, Stmt.callees_relabel s, Block.callees_relabel ss]

end

namespace Script

theorem checking_relabel (hm : m.KeepsIds) (s : Script) :
    (s.relabel m).checking = s.checking.relabel m := by
  have hfold (c : Checking) (ps : List Procedure) :
      (ps.map (Procedure.relabel m)).foldl Checking.procedure (c.relabel m) =
        (ps.foldl Checking.procedure c).relabel m := by
    induction ps generalizing c with
    | nil => rfl
    | cons p ps ih =>
        rw [List.map_cons, List.foldl_cons, List.foldl_cons, ← ih, c.procedure_relabel hm]
  exact hfold .start s.procedures

theorem typeNames_relabel (s : Script) :
    (s.relabel m).typeNames = s.typeNames.map (TypeName.relabel m) := by
  simp [typeNames, relabel, List.flatMap_map, List.map_flatMap, Procedure.typeNames,
    Procedure.relabel, Block.typeNames_relabel, Param.relabel, Function.comp_def]

theorem unknownType?_relabel (s : Script) :
    (s.relabel m).unknownType? = s.unknownType?.map (TypeName.relabel m) := by
  rw [unknownType?, typeNames_relabel, List.find?_map]
  rfl

/-- **Checking is blind to places.** -/
theorem check_relabel (hm : m.KeepsIds) (s : Script) :
    (s.relabel m).check = Verdict.relabel m s.check := by
  simp only [check, validate, unknownType?_relabel, checking_relabel hm]
  cases s.unknownType? with
  | some a => rfl
  | none =>
      have hfound : (s.checking.relabel m).found = s.checking.found.map (Diagnostic.relabel m) :=
        rfl
      rw [hfound]
      cases s.checking.found with
      | nil => rfl
      | cons d ds => rfl

theorem callGraph_relabel (s : Script) : (s.relabel m).callGraph = s.callGraph := by
  have hadd (g : CallGraph) (p : Procedure) :
      g.addProcedure (p.relabel m) = g.addProcedure p := by
    simp only [CallGraph.addProcedure, Procedure.relabel, Block.callees_relabel]
  simp only [callGraph_eq, relabel, List.foldl_map, hadd]

end Script

end ProcScript
