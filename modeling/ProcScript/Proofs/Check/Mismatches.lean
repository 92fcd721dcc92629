import ProcScript.Proofs.Check.Ledger

/-!
# Check — what is found of calls and of values

What a call is held against is known from the place where it stands (`Script.calls_found`): a
name that is declared in the procedure hides all procedures, and otherwise the first procedure of
the name before its own decides, however many more there are of that name.

The other values are those that statements give to variables.  A mismatch that is found neither
of a call nor of the returns of a procedure is one of the initial value of a new variable or of
the value assigned to a variable, and all of these are found (`Script.values_found`).
-/

namespace ProcScript

variable {env : Env} {earlier : List Procedure}

/-! ### Calls -/

/-- **What is found of a call.**  It is nothing if a parameter, or a variable that is declared
before the call, has the name.  Otherwise it is that there is no such procedure before this one;
or that the first one that there is has another number of parameters; or else the arguments whose
types are not those of the parameters. -/
theorem Script.calls_found {s : Script} (h : s.exprIds.Nodup) {i : Nat} {p : Procedure}
    (hp : s.procedures[i]? = some p) {before after : List Stmt} {callee : String}
    {args : List Expr} {span : Span}
    (hbody : Block.preorder p.body = before ++ .call callee args span :: after) :
    s.checking.found = s.ledger.flatMap Entry.found ∧
    ∃ front back, s.ledger = front ++ ⟨.stmt (.call callee args span),
        if callee ∈ (p.env before).names then []
        else
          match (s.procedures.take i).find? fun q => q.name = callee with
          | none   => [.noSuchSymbol callee span]
          | some f =>
              if f.params.length ≠ args.length then
                [.argCountMismatch f.params.length args.length span]
              else (f.params.zip args).flatMap fun arg =>
                mismatch arg.1.typeName.ty (arg.2.typeIn (p.env before)) span⟩ :: back ∧
      front.map Entry.part = (s.procedures.take i).flatMap Procedure.parts ++
        p.params.map .param ++ before.map .stmt := by
  obtain ⟨front, back, hledger, hfront⟩ := ledger_stmt h hp hbody
  exact ⟨s.found_eq_ledger, front, back, hledger, hfront⟩

/-- A call from inside a loop, with a variable and with a parameter. -/
def Script.looping : Procedure :=
  ⟨"main", [⟨"k", ⟨"Int32", .none⟩, .none⟩], ⟨"Void", .none⟩,
    [.varDef "x" ⟨"Bool", .none⟩ (some (.bool true 0 .none)) .none,
      .whileDo (.var "x" 1 .none)
        [.call "show" [.var "x" 2 .none, .var "k" 3 .none] .none] .none], .none⟩

/-- There are two procedures of the name, the first with two parameters of one name. -/
def Script.doubled : Script :=
  ⟨"", [⟨"show", [⟨"n", ⟨"Int32", .none⟩, .none⟩, ⟨"n", ⟨"Int32", .none⟩, .none⟩],
      ⟨"Void", .none⟩, [], .none⟩,
    ⟨"show", [], ⟨"Void", .none⟩, [], .none⟩, looping], .none⟩

/-- The call is held against the first procedure, and the parameter has no type. -/
theorem Script.doubled_calls : doubled.exprIds.Nodup ∧ doubled.procedures[2]? = some looping ∧
    ∃ front back, doubled.ledger =
      front ++ ⟨.stmt (.call "show" [.var "x" 2 .none, .var "k" 3 .none] .none),
        [.typeMismatch .int32 .bool .none, .typeMismatch .int32 .error .none]⟩ :: back := by
  have hn : doubled.exprIds.Nodup := by decide
  have hbody : Block.preorder looping.body = (Block.preorder looping.body).take 2 ++
      .call "show" [.var "x" 2 .none, .var "k" 3 .none] .none :: [] := rfl
  obtain ⟨-, front, back, hledger, -⟩ := calls_found hn (i := 2) rfl hbody
  exact ⟨hn, rfl, front, back, hledger⟩

/-! ### Values -/

/-- What is wrong with the value that the statement gives to a variable. -/
def Stmt.valueMismatches (env : Env) : Stmt → List Diagnostic
  | .varDef name typeName (some e) _ =>
      if name ∈ env.names then [] else mismatch typeName.ty (e.typeIn env) e.span
  | .assign target value _ =>
      match env.varType? target with
      | none      => []
      | some type => mismatch type (value.typeIn env) value.span
  | .varDef _ _ none _ | .ret .. | .call .. | .ifThen .. | .ifElse .. | .whileDo .. => []

def Diagnostic.isTypeMismatch : Diagnostic → Bool
  | typeMismatch .. => true
  | _               => false

/-- It is neither a call nor the returns of a procedure. -/
def Part.isPlain : Part → Bool
  | stmt (.call ..) | returns => false
  | _                         => true

namespace Diagnostic

theorem filter_mismatch (expected actual : Ty) (loc : Span) :
    (mismatch expected actual loc).filter isTypeMismatch = mismatch expected actual loc := by
  rw [mismatch]
  split <;> rfl

theorem filter_problems (d : Decl) : (d.problems env).filter isTypeMismatch = [] := by
  rw [Decl.problems]
  split <;> rfl

end Diagnostic

open Diagnostic (isTypeMismatch)

/-- The mismatches that are found for the part, if it is neither a call nor the returns. -/
def Entry.valueMismatches (e : Entry) : List Diagnostic :=
  if e.part.isPlain then e.found.filter isTypeMismatch else []

theorem Entry.filter_flatMap_found (es : List Entry) :
    ((es.filter fun e => e.part.isPlain).flatMap Entry.found).filter isTypeMismatch =
      es.flatMap Entry.valueMismatches := by
  induction es with
  | nil => rfl
  | cons e es ih =>
      by_cases he : e.part.isPlain = true
      · rw [List.filter_cons, if_pos he, List.flatMap_cons, List.filter_append, ih,
          List.flatMap_cons, valueMismatches, if_pos he]
      · rw [List.filter_cons, if_neg he, ih, List.flatMap_cons, valueMismatches, if_neg he,
          List.nil_append]

theorem Stmt.valueMismatches_entry (s : Stmt) :
    Entry.valueMismatches ⟨.stmt s, s.problems earlier env⟩ = s.valueMismatches env := by
  cases s with
  | varDef name typeName init span =>
      have hplain : (Part.stmt (.varDef name typeName init span)).isPlain = true := rfl
      rw [Entry.valueMismatches, if_pos hplain, problems]
      by_cases hn : name ∈ env.names
      · cases init <;> simp [valueMismatches, hn, isTypeMismatch]
      · cases init with
        | none => simp [valueMismatches, hn]
        | some e => simp [valueMismatches, hn, Diagnostic.filter_mismatch]
  | assign target value span =>
      have hplain : (Part.stmt (.assign target value span)).isPlain = true := rfl
      rw [Entry.valueMismatches, if_pos hplain, problems, valueMismatches]
      cases env.varType? target with
      | none => rfl
      | some type => simp [Diagnostic.filter_mismatch]
  | call callee args span => rfl
  | ret | ifThen | ifElse | whileDo => rfl

theorem Procedure.valueMismatches_ledger (p : Procedure) :
    (p.ledger earlier).flatMap Entry.valueMismatches =
      p.sites.flatMap fun site => site.2.valueMismatches site.1 := by
  have hparams : (p.paramSites.flatMap fun site =>
      Entry.valueMismatches ⟨.param site.2, site.2.decl.problems site.1⟩) = [] :=
    List.flatMap_eq_nil_iff.mpr fun site _ => Diagnostic.filter_problems site.2.decl
  have hname : Entry.valueMismatches ⟨.name, if p.name ∈ earlier.map name then
      [.dupSymbol p.name .procedure p.span] else []⟩ = [] := by
    split <;> rfl
  have hreturns : ∀ ds, Entry.valueMismatches ⟨.returns, ds⟩ = [] := fun _ => rfl
  have hunreachable : Entry.valueMismatches ⟨.unreachable, p.unreachable⟩ = [] := by
    refine List.filter_eq_nil_iff.mpr fun d hd => ?_
    obtain ⟨s, -, rfl⟩ := List.mem_map.mp hd
    exact Bool.false_ne_true
  simp only [ledger, List.flatMap_append, List.flatMap_map, List.flatMap_cons, List.flatMap_nil,
    hparams, hname, hreturns, hunreachable, Stmt.valueMismatches_entry, List.nil_append,
    List.append_nil]

/-- **What is found of the values of variables.** -/
theorem Script.values_found {s : Script} (h : s.exprIds.Nodup) :
    s.checking.found = s.ledger.flatMap Entry.found ∧
    ((s.ledger.filter fun e => e.part.isPlain).flatMap Entry.found).filter isTypeMismatch =
      s.procedures.flatMap fun p => p.sites.flatMap fun site =>
        site.2.valueMismatches site.1 := by
  refine ⟨s.found_eq_ledger, ?_⟩
  rw [Entry.filter_flatMap_found, ledger_eq h, List.flatMap_assoc]
  simp only [Procedure.valueMismatches_ledger]
  exact flatMap_snd_along
    (fun p : Procedure => p.sites.flatMap fun site => site.2.valueMismatches site.1) _ [] _

/-- An initial value of the name that is declared, a second declaration inside a block, and values
for a variable, for a parameter, and for what is not declared. -/
def Script.valued : Script :=
  ⟨"", [⟨"main", [⟨"n", ⟨"Int32", .none⟩, .none⟩], ⟨"Void", .none⟩,
    [.varDef "x" ⟨"Int32", .none⟩ (some (.var "x" 0 .none)) .none,
      .ifThen (.bool true 1 .none)
        [.varDef "x" ⟨"Bool", .none⟩ (some (.int 1 2 .none)) .none] .none,
      .assign "x" (.bool true 3 .none) .none, .assign "n" (.bool true 4 .none) .none,
      .assign "y" (.bool true 5 .none) .none, .assign "x" (.int 1 6 .none) .none], .none⟩], .none⟩

/-- Two of them are found wrong, and the second declaration does not change the type. -/
theorem Script.valued_values : valued.exprIds.Nodup ∧
    ((valued.ledger.filter fun e => e.part.isPlain).flatMap Entry.found).filter isTypeMismatch =
      [.typeMismatch .int32 .error .none, .typeMismatch .int32 .bool .none] := by
  have hn : valued.exprIds.Nodup := by decide
  exact ⟨hn, (values_found hn).2.trans (by decide)⟩

end ProcScript
