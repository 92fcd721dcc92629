import Mathlib.Data.Set.Finite.Basic
import Mathlib.Logic.Equiv.Basic
import ProcScript.Proofs.Check.Wording
import ProcScript.Proofs.Syntax.Words

/-!
# Check — the names that are found

**A check finds no name but those that are written** (`Script.name_of_found`).  Checking goes along
with every renaming that keeps names apart, whatever the names are.  A renaming that leaves the
names of a script as they are leaves the script as it is (`Script.reword_eq_self`), so it leaves
what is found of it as it is too; and a name that is not written can always be changed for another.
-/

namespace ProcScript

/-- The name that is said to be wrong, if any. -/
def Diagnostic.name? : Diagnostic → Option String
  | .dupSymbol name _ _  => some name
  | .noSuchSymbol name _ => some name
  | _                    => none

theorem Diagnostic.name?_rename (f : String → String) (d : Diagnostic) :
    (d.rename f).name? = d.name?.map f := by
  cases d <;> rfl

/-! ### Renamings that change nothing -/

variable {f : String → String}

namespace Word

/-- The names among the words stay as they are. -/
def Stay (f : String → String) (ws : List Word) : Prop := ∀ name, .name name ∈ ws → f name = name

variable {ws vs : List Word}

@[simp] theorem stay_nil : Stay f [] := fun _ h => absurd h List.not_mem_nil

@[simp] theorem stay_name {name : String} :
    Stay f (.name name :: ws) ↔ f name = name ∧ Stay f ws := by
  simp [Stay]

@[simp] theorem stay_kind {kind : Kind} : Stay f (.kind kind :: ws) ↔ Stay f ws := by
  simp [Stay]

@[simp] theorem stay_append : Stay f (ws ++ vs) ↔ Stay f ws ∧ Stay f vs := by
  simp [Stay, or_imp, forall_and]

theorem stay_of_separated {wss : List (List Word)} (h : Stay f (separated wss)) :
    ∀ ws ∈ wss, Stay f ws := by
  induction wss with
  | nil => exact List.forall_mem_nil _
  | cons ws wss ih =>
      rw [List.forall_mem_cons]
      cases wss with
      | nil => exact ⟨h, List.forall_mem_nil _⟩
      | cons vs wss =>
          rw [separated_cons (List.cons_ne_nil vs wss), stay_append, stay_kind] at h
          exact ⟨h.1, ih h.2⟩

end Word

theorem Expr.rename_eq_self {e : Expr} (h : Word.Stay f e.words) : e.rename f = e := by
  induction e with
  | var name id span => simp_all [Expr.words, Expr.rename]
  | bool value id span => rfl
  | int value id span => rfl
  | binary op left right id span ihl ihr => simp_all [Expr.words, Expr.rename]
  | unary op operand id span ih => simp_all [Expr.words, Expr.rename]
  | paren inner id span ih => simp_all [Expr.words, Expr.rename]

/-- So it is with lists of expressions. -/
theorem Expr.map_rename_eq_self {es : List Expr} (h : ∀ e ∈ es, Word.Stay f e.words) :
    es.map (Expr.rename f) = es :=
  List.map_congr_left (fun e he => rename_eq_self (h e he)) |>.trans (List.map_id _)

mutual

theorem Stmt.reword_eq_self : ∀ s : Stmt, Word.Stay f s.words → s.reword ⟨f, id⟩ = s
  | .varDef name typeName none span, h => by
      simp only [Stmt.words, Word.stay_name, Word.stay_kind] at h
      simp [Stmt.reword, h.1]
  | .varDef name typeName (some init) span, h => by
      simp only [Stmt.words, Word.stay_append, Word.stay_name, Word.stay_kind] at h
      simp [Stmt.reword, h.1.1.1, Expr.rename_eq_self h.1.2]
  | .ret none span, h => rfl
  | .ret (some value) span, h => by
      simp only [Stmt.words, Word.stay_append, Word.stay_kind] at h
      simp [Stmt.reword, Expr.rename_eq_self h.1]
  | .call callee args span, h => by
      simp only [Stmt.words, Word.stay_append, Word.stay_name] at h
      have hargs := Word.stay_of_separated h.1.2
      rw [List.forall_mem_map] at hargs
      simp [Stmt.reword, h.1.1.1, Expr.map_rename_eq_self hargs]
  | .assign target value span, h => by
      simp only [Stmt.words, Word.stay_append, Word.stay_name] at h
      simp [Stmt.reword, h.1.1.1, Expr.rename_eq_self h.1.2]
  | .ifThen condition body span, h => by
      simp only [Stmt.words, Word.stay_append, Word.stay_kind] at h
      simp [Stmt.reword, Expr.rename_eq_self h.1, Block.reword_eq_self body h.2.1]
  | .ifElse condition body other span, h => by
      simp only [Stmt.words, Word.stay_append, Word.stay_kind] at h
      simp [Stmt.reword, Expr.rename_eq_self h.1, Block.reword_eq_self body h.2.1,
        Block.reword_eq_self other h.2.2.1]
  | .whileDo condition body span, h => by
      simp only [Stmt.words, Word.stay_append, Word.stay_kind] at h
      simp [Stmt.reword, Expr.rename_eq_self h.1, Block.reword_eq_self body h.2.1]

theorem Block.reword_eq_self : ∀ ss : List Stmt, Word.Stay f (Block.words ss) →
    Block.reword ⟨f, id⟩ ss = ss
  | [], h => rfl
  | s :: ss, h => by
      rw [Block.words, Word.stay_append] at h
      rw [Block.reword, Stmt.reword_eq_self s h.1, Block.reword_eq_self ss h.2]

end

theorem Param.reword_eq_self {q : Param} (h : Word.Stay f q.words) : q.reword ⟨f, id⟩ = q := by
  simp only [Param.words, Word.stay_name] at h
  simp [Param.reword, h.1]

theorem Procedure.reword_eq_self {p : Procedure} (h : Word.Stay f p.words) :
    p.reword ⟨f, id⟩ = p := by
  simp only [Procedure.words, Word.stay_append, Word.stay_name, Word.stay_kind] at h
  have hparams := Word.stay_of_separated h.1.1.1.2
  rw [List.forall_mem_map] at hparams
  have hsame : p.params.map (Param.reword ⟨f, id⟩) = p.params :=
    (List.map_congr_left fun q hq => Param.reword_eq_self (hparams q hq)).trans (List.map_id _)
  simp [Procedure.reword, h.1.1.1.1.1, hsame, Block.reword_eq_self p.body h.1.2]

namespace Script

variable {s : Script}

theorem reword_eq_self (h : Word.Stay f s.words) : s.reword ⟨f, id⟩ = s := by
  have hp : ∀ p ∈ s.procedures, p.reword ⟨f, id⟩ = p := fun p hp =>
    Procedure.reword_eq_self fun name hname => h name (List.mem_flatMap_of_mem hp hname)
  rw [reword, List.map_congr_left hp, List.map_id']

/-- What is found of a script stays as it is where its names do. -/
theorem found_stays (hf : Function.Injective f) (h : Word.Stay f s.words) :
    ∀ d ∈ s.checking.found, d.rename f = d := by
  have hsame := s.checking_reword (w := ⟨f, id⟩) ⟨hf, fun _ _ => rfl⟩
  rw [reword_eq_self h] at hsame
  have hmap : s.checking.found.map (Diagnostic.rename f) = s.checking.found.map id := by
    rw [List.map_id]
    exact (congrArg Checking.found hsame).symm
  exact List.map_inj_left.mp hmap

/-- **A check finds no name but those that are written.** -/
theorem name_of_found {d : Diagnostic} (hd : d ∈ s.checking.found) {name : String}
    (hname : d.name? = some name) : .name name ∈ s.words := by
  by_contra hnot
  -- Another name that is not written can be swapped with this one.
  have hinfinite : (Set.range Word.name).Infinite :=
    Set.infinite_range_of_injective fun _ _ => Word.name.inj
  obtain ⟨_, ⟨other, rfl⟩, hother⟩ :=
    hinfinite.exists_notMem_finset (.name name :: s.words).toFinset
  rw [List.mem_toFinset, List.mem_cons, not_or] at hother
  have hstay : Word.Stay (Equiv.swap name other) s.words := by
    intro n hn
    refine Equiv.swap_apply_of_ne_of_ne ?_ ?_
    · rintro rfl
      exact hnot hn
    · rintro rfl
      exact hother.2 hn
  have hsame := found_stays (Equiv.swap name other).injective hstay d hd
  have hname' := congrArg Diagnostic.name? hsame
  rw [Diagnostic.name?_rename, hname, Option.map_some, Equiv.swap_apply_left] at hname'
  exact hother.1 (congrArg Word.name (Option.some.inj hname'))

end Script

end ProcScript
