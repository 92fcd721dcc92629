import Mathlib
import ProcScript.Proofs.Syntax.Ends
import ProcScript.Proofs.Syntax.Passage
import ProcScript.Reader.Script

/-!
# Syntax — the numbers of a tree

A reader counts the expressions that it reads, those of trees that are dropped included, and
gives each its number when it is complete.  `r.Numbers s spare ids` says that `ids` are among the
numbers given on the way from `r` to `s`, in their order, and all of them if nothing is found
there, and that no more than one is given for each token on the way, `spare` of the tokens left
aside.  `Outcome.Counts` says of a reading that it gives the numbers of its value on its way; it
is closed under the combinators of readings.

So the numbers of a script are among the first ones, as many as it has tokens, in their order
(`Script.exprIds_ofTokens`).  They differ unless the counter ran through all of its values
(`Script.nodup_exprIds_ofTokens`), and it does not do so on fewer tokens than it has values:
**the numbers increase along the tree, and where nothing is found they leave no gap**
(`Script.exprIds_increase`).
-/

namespace ProcScript

/-- The `k` numbers from `i` on. -/
def numbersFrom (i : ExprId) (k : Nat) : List ExprId :=
  (List.range k).map fun j => i + UInt32.ofNat j

theorem numbersFrom_add (i : ExprId) (k l : Nat) :
    numbersFrom i (k + l) = numbersFrom i k ++ numbersFrom (i + UInt32.ofNat k) l := by
  simp only [numbersFrom, List.range_add, List.map_append, List.map_map]
  congr 1
  refine List.map_congr_left fun j _ => ?_
  simp only [Function.comp_apply, UInt32.ofNat_add, UInt32.add_assoc]

theorem numbersFrom_one (i : ExprId) : numbersFrom i 1 = [i] := by
  simp [numbersFrom]

/-- As long as there are numbers, those from 0 on are the natural numbers. -/
theorem map_toNat_numbersFrom {k : Nat} (h : k ≤ UInt32.size) :
    (numbersFrom 0 k).map UInt32.toNat = List.range k := by
  have hone : ∀ j ∈ List.range k, (0 + UInt32.ofNat j).toNat = j := fun j hj => by
    rw [UInt32.zero_add]
    exact UInt32.toNat_ofNat_of_lt' (Nat.lt_of_lt_of_le (List.mem_range.mp hj) h)
  rw [numbersFrom, List.map_map]
  exact (List.map_congr_left hone).trans (List.map_id' _)

namespace Reader

/-- From `r` to `s` the tokens `ts` are passed, `ds` is found and `k` numbers are given, no more
than tokens are passed, `spare` of these left aside. -/
structure Gives (r s : Reader) (ts : List Token) (ds : List Diagnostic) (k spare : Nat) :
    Prop where
  passes : r.Passes s ts ds
  nextId : s.nextId = r.nextId + UInt32.ofNat k
  enough : k + spare ≤ ts.length

/-- From `r` to `s` the numbers `ids` are given, and no others if nothing is found; `spare` tokens
at least are passed for which none is. -/
def Numbers (r s : Reader) (spare : Nat) (ids : List ExprId) : Prop :=
  ∃ ts ds k, r.Gives s ts ds k spare ∧ ids.Sublist (numbersFrom r.nextId k) ∧
    (ds = [] → ids = numbersFrom r.nextId k)

/-- From `r` to `s` something is found; what numbers are given there is left open. -/
def Drops (r s : Reader) : Prop := ∃ ts ds k, r.Gives s ts ds k 0 ∧ ds ≠ []

variable {r s u : Reader} {t : Token} {ts us : List Token} {ds es : List Diagnostic}
variable {a b k l : Nat} {ids ids' : List ExprId}

theorem Gives.trans (h : r.Gives s ts ds k a) (h' : s.Gives u us es l b) :
    r.Gives u (ts ++ us) (ds ++ es) (k + l) (a + b) where
  passes := h.passes.trans h'.passes
  nextId := by rw [h'.nextId, h.nextId, UInt32.add_assoc, UInt32.ofNat_add]
  enough := by
    have := h.enough
    have := h'.enough
    rw [List.length_append]
    omega

/-- Where nothing is numbered. -/
theorem Gives.of_passes (h : r.Passes s ts ds) (hid : s.nextId = r.nextId) :
    r.Gives s ts ds 0 ts.length :=
  ⟨h, by simpa using hid, by omega⟩

theorem Gives.spared (h : r.Gives s ts ds k a) (hab : b ≤ a) : r.Gives s ts ds k b :=
  ⟨h.passes, h.nextId, Nat.le_trans (Nat.add_le_add_left hab k) h.enough⟩

theorem Gives.numbers (h : r.Gives s ts ds 0 a) : r.Numbers s a [] :=
  ⟨ts, ds, 0, h, List.nil_sublist _, fun _ => rfl⟩

theorem Numbers.refl (r : Reader) : r.Numbers r 0 [] := (Gives.of_passes (.refl r) rfl).numbers

theorem Numbers.trans (h : r.Numbers s a ids) (h' : s.Numbers u b ids') :
    r.Numbers u (a + b) (ids ++ ids') := by
  obtain ⟨ts, ds, k, hg, hids, hall⟩ := h
  obtain ⟨us, es, l, hg', hids', hall'⟩ := h'
  refine ⟨_, _, _, hg.trans hg', ?_, fun hnil => ?_⟩
  · rw [numbersFrom_add, ← hg.nextId]
    exact hids.append hids'
  · obtain ⟨hds, hes⟩ := List.append_eq_nil_iff.mp hnil
    rw [numbersFrom_add, ← hg.nextId, ← hall hds, ← hall' hes]

/-- Nothing has to be spared. -/
theorem Numbers.all (h : r.Numbers s a ids) : r.Numbers s 0 ids := by
  obtain ⟨ts, ds, k, hg, hids⟩ := h
  exact ⟨ts, ds, k, hg.spared (Nat.zero_le a), hids⟩

/-- What is numbered before something is found may be dropped with it. -/
theorem Numbers.drops (h : r.Numbers s a ids) (h' : s.Drops u) : r.Drops u := by
  obtain ⟨ts, ds, k, hg, -⟩ := h.all
  obtain ⟨us, es, l, hg', hes⟩ := h'
  exact ⟨_, _, _, hg.trans hg', fun hnil => hes (List.append_eq_nil_iff.mp hnil).2⟩

/-- Of what is dropped there are no numbers. -/
theorem Drops.numbers (h : r.Drops s) : r.Numbers s 0 [] := by
  obtain ⟨ts, ds, k, hg, hds⟩ := h
  exact ⟨ts, ds, k, hg, List.nil_sublist _, fun hnil => absurd hnil hds⟩

/-- A node takes the next number, for which a token was spared. -/
theorem Numbers.number (h : r.Numbers s (a + 1) ids) :
    r.Numbers { s with nextId := s.nextId + 1 } a (ids ++ [s.nextId]) := by
  obtain ⟨ts, ds, k, hg, hids, hall⟩ := h
  have hpasses := hg.passes.trans (.nextId s (s.nextId + 1))
  have henough := hg.enough
  rw [List.append_nil, List.append_nil] at hpasses
  refine ⟨ts, ds, k + 1, ⟨hpasses, ?_, by omega⟩, ?_, fun hnil => ?_⟩
  · rw [hg.nextId, UInt32.add_assoc, UInt32.ofNat_add]
    rfl
  · rw [numbersFrom_add, ← hg.nextId, numbersFrom_one]
    exact hids.append (.refl _)
  · rw [numbersFrom_add, ← hg.nextId, numbersFrom_one, hall hnil]

/-! ### Moves -/

theorem nextId_advance (r : Reader) : r.advance.nextId = r.nextId := by
  rw [advance]
  split <;> rfl

theorem numbers_next? {s : { s : Reader // s.rest.length < r.rest.length }}
    (h : r.next? = some (t, s)) : r.Numbers s.val 1 [] := by
  have hs := (next?_eq_some h).2
  exact (Gives.of_passes (passes_next? h) (by rw [hs, nextId_advance])).numbers

theorem numbers_eat? {kind : Kind} {s : { s : Reader // s.rest.length < r.rest.length }}
    (h : r.eat? kind = some s) : r.Numbers s.val 1 [] := by
  rw [eat?] at h
  split at h
  · rename_i t s' ht
    split at h
    · obtain rfl := Option.some.inj h
      exact numbers_next? ht
    · cases h
  · cases h

theorem drops_report (r : Reader) (error : SyntaxError) (loc : Span) :
    r.Drops (r.report error loc) :=
  ⟨[], _, 0, .of_passes (.report r error loc) rfl, List.cons_ne_nil _ _⟩

theorem numbers_toBoundary (r : Reader) : r.Numbers r.toBoundary 0 [] := by
  obtain ⟨ts, hp⟩ := passes_toBoundary r
  refine (Gives.of_passes hp ?_).numbers.all
  clear hp
  fun_induction toBoundary r with
  | case1 | case2 => rfl
  | case3 r t ts h hb ih => rw [ih, nextId_advance]

theorem numbers_toDef (r : Reader) : r.Numbers r.toDef 0 [] := by
  obtain ⟨ts, hp⟩ := passes_toDef r
  refine (Gives.of_passes hp ?_).numbers.all
  clear hp
  fun_induction toDef r with
  | case1 | case2 => rfl
  | case3 r t ts h hd ih => rw [ih, nextId_advance]

end Reader

/-! ### Readings -/

namespace Outcome

variable {α β : Type} {m n a : Nat} {r s : Reader} {v : α → List ExprId} {w : β → List ExprId}

/-- A reading from `r` that gives the numbers of its value, or finds something. -/
def Counts (o : Outcome α n) (r : Reader) (ids : α → List ExprId) : Prop :=
  o.Ends (fun a s => r.Numbers s 0 (ids a)) r.Drops

/-- A reading of a node that is still without a number: what is in it has its numbers, and a token
is left for its own. -/
def CountsNode (o : Outcome (ExprId → Expr) n) (r : Reader) : Prop :=
  o.Ends (fun node s => ∃ ids, (∀ id, (node id).ids = ids ++ [id]) ∧ r.Numbers s 1 ids) r.Drops

theorem Counts.mono {o : Outcome α m} (h : o.Counts r v) (hle : m ≤ n) :
    (o.mono hle).Counts r v :=
  Ends.mono h hle

theorem Counts.past {o : Outcome α m} (h : o.Counts r v) (hlt : m < n) :
    (o.past hlt).Counts r v :=
  Ends.past h hlt

theorem Counts.map {o : Outcome α n} {f : α → β} (h : o.Counts r v) (hf : ∀ a, w (f a) = v a) :
    (o.map f).Counts r w := by
  refine Ends.map (Ends.imp h (fun a s hs => ?_) fun _ => id)
  rwa [hf a]

theorem Counts.bind {o : Outcome α n}
    {k : α → (s : Reader) → s.rest.length < n → Outcome β s.rest.length} (h : o.Counts r v)
    (hk : ∀ a s hs, r.Numbers s 0 (v a) → (k a s hs).Counts r w) : (o.bind k).Counts r w :=
  Ends.bind h hk

theorem CountsNode.number {o : Outcome (ExprId → Expr) n} (h : o.CountsNode r) :
    o.number.Counts r Expr.ids := by
  refine Ends.number (Ends.imp h (fun node s hs => ?_) fun _ => id)
  obtain ⟨ids, hids, hs⟩ := hs
  rw [hids]
  exact hs.number

/-- What is read where others were numbered is counted behind them. -/
theorem Counts.behind {o : Outcome α n} {ids : List ExprId} (h : o.Counts s v)
    (hs : r.Numbers s a ids) : o.Counts r fun x => ids ++ v x :=
  Ends.imp h (fun _ _ hv => (hs.trans hv).all) fun _ => hs.drops

end Outcome

namespace Reader

variable {r s : Reader} {t : Token}

theorem counts_failExpected {α : Type} {ids : α → List ExprId} (what : Expected) (r : Reader) :
    (r.failExpected what).Counts r ids :=
  drops_report r _ _

theorem counts_expect (kind : Kind) (r : Reader) : (r.expect kind).Counts r fun _ => [] := by
  rw [expect]
  split
  · rename_i t s h hn
    split
    · exact (numbers_next? hn).all
    · exact counts_failExpected _ r
  · exact counts_failExpected _ r

/-- A token behind what was numbered. -/
theorem counts_close {ids : List ExprId} (kind : Kind) (h : r.Numbers s 0 ids) :
    (s.expect kind).Counts r fun _ => ids := by
  have hs := (counts_expect kind s).behind h
  rwa [List.append_nil] at hs

theorem counts_typeName (r : Reader) : r.typeName.Counts r fun _ => [] :=
  (counts_expect _ r).map fun _ => rfl

/-! ### Expressions -/

theorem counts_literal {n : Nat} {hlt : s.rest.length < n} (hp : r.Numbers s 1 []) (loc : Span) :
    ((literal t s hlt).map fun value id => Expr.int value id loc).CountsNode r := by
  refine Outcome.Ends.map ?_
  rw [literal]
  split
  · exact ⟨[], fun _ => rfl, hp⟩
  · exact ⟨[], fun _ => rfl, hp.trans (drops_report s _ _).numbers⟩

theorem counts_variableName {n : Nat} {hlt : s.rest.length < n} (hp : r.Numbers s 1 [])
    (loc : Span) :
    ((variableName t s hlt).map fun name id => Expr.var name id loc).CountsNode r := by
  refine Outcome.Ends.map ?_
  rw [variableName]
  split
  · exact hp.drops (drops_report s _ _)
  · exact ⟨[], fun _ => rfl, hp⟩

/-- A node around an expression behind a token. -/
theorem counts_around {n : Nat} {o : Outcome Expr n} {f : Expr → ExprId → Expr}
    {ids : List ExprId} (ho : o.Counts s Expr.ids) (hp : r.Numbers s 1 ids)
    (hf : ∀ e id, (f e id).ids = ids ++ e.ids ++ [id]) : (o.map f).CountsNode r :=
  Outcome.Ends.map (ho.imp (fun e _ he => ⟨ids ++ e.ids, hf e, hp.trans he⟩)
    fun _ => hp.drops)

/-- The operators behind an expression, if the expressions of shorter readers are known. -/
theorem counts_operators (min : Nat) {left : Expr} {s : Reader}
    (hs : ∀ u : Reader, u.rest.length < s.rest.length →
      ∀ level, (u.expr level).Counts u Expr.ids)
    (hl : r.Numbers s 0 left.ids) : (s.operators min left).Counts r Expr.ids := by
  rw [operators]
  split
  · exact hl
  · rename_i t s' hlt hn
    split
    · exact hl
    · rename_i level op hop
      split
      · exact hl
      · -- The operator is the token that its node takes a number for.
        have hop : r.Numbers s' 1 left.ids := by
          simpa using hl.trans (numbers_next? hn)
        have hr := (counts_around
          (f := fun right id => .binary op left right id (left.span.merge right.span))
          (hs s' hlt (level + 1)) hop fun _ _ => rfl).number
        split
        · rename_i e s'' h heq
          rw [heq] at hr
          have hlt' : s''.rest.length < s.rest.length := Nat.lt_trans h hlt
          exact (counts_operators min (fun u hu => hs u (Nat.lt_trans hu hlt')) hr).mono _
        · rename_i s'' h heq
          rw [heq] at hr
          exact hr
termination_by s.rest.length

/-- An operand, if the expressions of shorter readers are known. -/
theorem counts_operand (hr : ∀ u : Reader, u.rest.length < r.rest.length →
    ∀ level, (u.expr level).Counts u Expr.ids) : r.operand.Counts r Expr.ids := by
  rw [operand]
  split
  · exact counts_failExpected _ r
  · rename_i t s hlt hn
    have hp := numbers_next? hn
    split
    · exact (counts_literal hp t.span).number
    · exact Outcome.CountsNode.number ⟨[], fun _ => rfl, hp⟩
    · exact Outcome.CountsNode.number ⟨[], fun _ => rfl, hp⟩
    · exact (counts_variableName hp t.span).number
    · exact (counts_around (hr s hlt tightest) hp fun _ _ => rfl).number.past hlt
    · exact (counts_around (hr s hlt tightest) hp fun _ _ => rfl).number.past hlt
    · -- The `(` is the token that the node takes a number for.
      refine (Outcome.CountsNode.number (Outcome.Ends.bind ((hr s hlt 1).imp
        (fun _ _ he => hp.trans he) fun _ => hp.drops) fun e u _ hu => ?_)).past hlt
      exact Outcome.Ends.map ((counts_expect _ u).imp
        (fun _ _ hc => ⟨_, fun _ => by simp [Expr.ids], hu.trans hc⟩)
        fun _ => hu.drops)
    · exact counts_failExpected _ r

theorem counts_expr (min : Nat) (r : Reader) : (r.expr min).Counts r Expr.ids := by
  have hr : ∀ u : Reader, u.rest.length < r.rest.length →
      ∀ level, (u.expr level).Counts u Expr.ids := fun u _ level => counts_expr level u
  have ho := counts_operand hr
  rw [expr]
  split
  · rename_i left s h heq
    rw [heq] at ho
    exact (counts_operators min (fun u hu => hr u (Nat.lt_trans hu h)) ho).mono h
  · rename_i s h heq
    rw [heq] at ho
    exact ho
termination_by r.rest.length

/-! ### Lists -/

theorem counts_expressions (r : Reader) :
    r.expressions.Counts r fun es => es.flatMap Expr.ids := by
  rw [expressions]
  refine (counts_expr 1 r).bind fun e s _ hs => ?_
  split
  · rename_i u hlt heq
    have hu := (hs.trans (numbers_eat? heq)).all
    exact (((counts_expressions u).behind hu).map fun es => by simp).past hlt
  · exact (counts_close _ hs).map fun _ => by simp
termination_by r.rest.length

theorem counts_arguments (r : Reader) : r.arguments.Counts r fun es => es.flatMap Expr.ids := by
  rw [arguments]
  split
  · exact (counts_expect _ r).map fun _ => rfl
  · exact counts_expressions r

theorem counts_param (r : Reader) : r.param.Counts r fun _ => [] := by
  rw [param]
  refine (counts_expect _ r).bind fun _ s _ hs => ?_
  refine (counts_close _ hs).bind fun _ s _ hs => ?_
  exact ((counts_typeName s).behind hs).map fun _ => rfl

theorem counts_paramList (r : Reader) : r.paramList.Counts r fun _ => [] := by
  rw [paramList]
  refine (counts_param r).bind fun p s _ hs => ?_
  split
  · rename_i u hlt heq
    have hu := (hs.trans (numbers_eat? heq)).all
    exact (((counts_paramList u).behind hu).map (w := fun _ => []) fun _ => rfl).past hlt
  · exact (counts_close _ hs).map fun _ => rfl
termination_by r.rest.length

theorem counts_params (r : Reader) : r.params.Counts r fun _ => [] := by
  rw [params]
  split
  · exact (counts_expect _ r).map fun _ => rfl
  · exact counts_paramList r

/-! ### Statements -/

theorem counts_varDef (start : Span) (r : Reader) : (r.varDef start).Counts r Stmt.exprIds := by
  rw [varDef]
  refine (counts_expect _ r).bind fun _ s _ hs => ?_
  refine (counts_close _ hs).bind fun _ s _ hs => ?_
  refine ((counts_typeName s).behind hs).bind fun type s _ hs => ?_
  split
  · rename_i u hlt heq
    have hu := (hs.trans (numbers_eat? heq)).all
    refine (((counts_expr 1 u).behind hu).bind fun e s _ hs => ?_).past hlt
    exact (counts_close _ hs).map fun _ => by simp [Stmt.exprIds]
  · exact (counts_close _ hs).map fun _ => by simp [Stmt.exprIds]

theorem counts_returnStmt (start : Span) (r : Reader) :
    (r.returnStmt start).Counts r Stmt.exprIds := by
  rw [returnStmt]
  split
  · exact (counts_expect _ r).map fun _ => rfl
  · refine (counts_expr 1 r).bind fun e s _ hs => ?_
    exact (counts_close _ hs).map fun _ => rfl

theorem counts_callOrAssign (name : Token) (r : Reader) :
    (r.callOrAssign name).Counts r Stmt.exprIds := by
  rw [callOrAssign]
  split
  · refine (counts_expect _ r).bind fun _ s _ hs => ?_
    refine ((counts_arguments s).behind hs).bind fun args s _ hs => ?_
    exact (counts_close _ hs).map fun _ => by simp [Stmt.exprIds]
  · refine (counts_expect _ r).bind fun _ s _ hs => ?_
    refine ((counts_expr 1 s).behind hs).bind fun e s _ hs => ?_
    exact (counts_close _ hs).map fun _ => by simp [Stmt.exprIds]
  · exact counts_failExpected _ r

/-- The numbers of a block. -/
def Block.Counts {n : Nat} (b : Block n) (r : Reader) : Prop :=
  r.Numbers b.after 0 (ProcScript.Block.exprIds b.stmts)

/-- An `if`, if the blocks of shorter readers are known. -/
theorem counts_ifStmt (start : Span)
    (hb : ∀ u : Reader, u.rest.length < r.rest.length → ∀ closers, (u.block closers).Counts u) :
    (r.ifStmt start).Counts r Stmt.exprIds := by
  rw [ifStmt]
  refine (counts_expr 1 r).bind fun e s hlt hs => ?_
  refine (counts_close _ hs).bind fun _ u hlt' hs => ?_
  have hu := Nat.lt_trans hlt' hlt
  have hbody := hs.trans (hb u hu [.kwElse, .kwEnd])
  refine Block.ends_bind ?_
  split
  · rename_i v hv heq
    -- The second block starts behind the first one, so it is one of a shorter reader too.
    have hlt := Nat.lt_of_lt_of_le hv (u.block [.kwElse, .kwEnd]).notLonger
    have hother := ((hbody.trans (numbers_eat? heq)).trans
      (hb v (Nat.lt_trans hlt hu) [.kwEnd])).all
    refine (Block.ends_bind ?_).past hv
    exact (counts_close _ hother).map fun _ => by simp [Stmt.exprIds]
  · exact (counts_close _ hbody).map fun _ => by simp [Stmt.exprIds]

/-- A `while`, if the blocks of shorter readers are known. -/
theorem counts_whileStmt (start : Span)
    (hb : ∀ u : Reader, u.rest.length < r.rest.length → ∀ closers, (u.block closers).Counts u) :
    (r.whileStmt start).Counts r Stmt.exprIds := by
  rw [whileStmt]
  refine (counts_expr 1 r).bind fun e s hlt hs => ?_
  refine (counts_close _ hs).bind fun _ u hlt' hs => ?_
  have hbody := hs.trans (hb u (Nat.lt_trans hlt' hlt) [.kwEnd])
  refine Block.ends_bind ?_
  exact (counts_close _ hbody).map fun _ => by simp [Stmt.exprIds]

/-- A statement behind its first token, if the blocks of shorter readers are known. -/
theorem counts_stmt (t : Token)
    (hb : ∀ u : Reader, u.rest.length < r.rest.length → ∀ closers, (u.block closers).Counts u) :
    (r.stmt t).Counts r Stmt.exprIds := by
  rw [stmt]
  split
  · exact counts_varDef _ r
  · exact counts_returnStmt _ r
  · exact counts_ifStmt _ hb
  · exact counts_whileStmt _ hb
  · exact counts_callOrAssign t r
  · exact drops_report r _ _

/-- A statement that fails takes its numbers with it. -/
theorem counts_block (closers : List Kind) (r : Reader) : (r.block closers).Counts r := by
  rw [block]
  split
  · exact .refl r
  · rename_i t s hs hn
    split
    · exact .refl r
    · have hp := numbers_next? hn
      have hst := counts_stmt t fun u hu closers =>
        have := Nat.lt_trans hu hs
        counts_block closers u
      split
      · rename_i stmt s' h heq
        rw [heq] at hst
        exact ((hp.trans hst).trans (counts_block closers s')).all
      · rename_i s' h heq
        rw [heq] at hst
        have hle := length_toBoundary_le s'
        exact (((hp.drops hst).numbers.trans (numbers_toBoundary s')).trans
          (counts_block closers s'.toBoundary)).all
termination_by r.rest.length

/-! ### Scripts -/

theorem counts_procedure (start : Span) (r : Reader) :
    (r.procedure start).Counts r fun p => ProcScript.Block.exprIds p.body := by
  rw [procedure]
  refine (counts_expect _ r).bind fun _ s _ hs => ?_
  refine (counts_close _ hs).bind fun _ s _ hs => ?_
  refine ((counts_params s).behind hs).bind fun _ s _ hs => ?_
  refine (counts_close _ hs).bind fun _ s _ hs => ?_
  refine ((counts_typeName s).behind hs).bind fun _ s _ hs => ?_
  refine (counts_close _ hs).bind fun _ s _ hs => ?_
  have hbody := hs.trans (counts_block [.kwEnd] s)
  refine Block.ends_bind ?_
  exact (counts_close _ hbody).map fun _ => by simp

theorem numbers_procedures (r : Reader) : r.Numbers r.procedures.2 0
    (r.procedures.1.flatMap fun p => ProcScript.Block.exprIds p.body) := by
  rw [procedures]
  split
  · exact .refl r
  · rename_i t s hlt hn
    have hp := numbers_next? hn
    split
    · have hr := counts_procedure t.span s
      split
      · rename_i p s' h heq
        rw [heq] at hr
        exact ((hp.trans hr).trans (numbers_procedures s')).all
      · rename_i s' h heq
        rw [heq] at hr
        have hle := length_toDef_le s'
        exact (((hp.drops hr).numbers.trans (numbers_toDef s')).trans
          (numbers_procedures s'.toDef)).all
    · have hle := length_pastStray_le t s
      exact (((hp.drops (drops_report s _ _)).numbers.trans (numbers_toDef _)).trans
        (numbers_procedures (s.pastStray t))).all
termination_by r.rest.length

end Reader

namespace Script

end Script

/-! ### The counter -/

namespace Reader

variable {r s : Reader} {ts : List Token} {ds : List Diagnostic} {k a : Nat}

/-- There is a number for each token to come. -/
def Roomy (r : Reader) : Prop := r.nextId.toNat + r.rest.length < UInt32.size

/-- From `r` to `s` the counter goes up, if at all, and by one for each token at most. -/
structure CountsUp (r s : Reader) : Prop where
  up : r.nextId ≤ s.nextId
  enough : s.nextId.toNat + s.rest.length ≤ r.nextId.toNat + r.rest.length

/-- As many numbers are given as the counter goes up by. -/
theorem Gives.toNat_nextId (h : r.Gives s ts ds k a) (hr : r.Roomy) :
    s.nextId.toNat = r.nextId.toNat + k := by
  have hlen := congrArg List.length h.passes.rest
  have henough := h.enough
  rw [List.length_append] at hlen
  rw [Roomy] at hr
  rw [h.nextId, UInt32.toNat_add, UInt32.toNat_ofNat_of_lt' (by omega), Nat.mod_eq_of_lt]
  exact Nat.lt_of_le_of_lt (by omega) hr

theorem Gives.countsUp (h : r.Gives s ts ds k a) (hr : r.Roomy) : r.CountsUp s := by
  have hnat := h.toNat_nextId hr
  have hlen := congrArg List.length h.passes.rest
  have henough := h.enough
  rw [List.length_append] at hlen
  exact ⟨UInt32.le_iff_toNat_le.mpr (by omega), by omega⟩

theorem roomy_ofTokens {ts : List Token} (h : ts.length < UInt32.size) : (ofTokens ts).Roomy := by
  have hrest : (ofTokens ts).rest.length ≤ ts.length := (List.takeWhile_prefix _).length_le
  have hzero : (ofTokens ts).nextId.toNat = 0 := rfl
  rw [Roomy, hzero, Nat.zero_add]
  exact Nat.lt_of_le_of_lt hrest h

/-- No reading of an expression makes the counter start again. -/
theorem countsUp_expr (min : Nat) (hr : r.Roomy) : r.CountsUp (r.expr min).after := by
  have h := counts_expr min r
  revert h
  cases r.expr min with
  | ok e s hs =>
      rintro ⟨ts, ds, k, hg, -⟩
      exact hg.countsUp hr
  | fail s hs =>
      rintro ⟨ts, ds, k, hg, -⟩
      exact hg.countsUp hr

end Reader

namespace Script

/-- **Expressions have increasing numbers.**  Operands come before what they belong to, and the
counter does not start again, neither in a reading of an expression nor from the first token to
the last.  Where nothing is found there is no gap. -/
theorem exprIds_increase (ts : List Token) (h : ts.length < UInt32.size) :
    let ids := (ofTokens ts).1.exprIds
    let last := (Reader.ofTokens ts).procedures.2
    ids.Pairwise (· < ·) ∧ ids.Nodup ∧ (∀ id ∈ ids, id < last.nextId) ∧
      (Reader.ofTokens ts).Roomy ∧ (Reader.ofTokens ts).CountsUp last ∧
      (∀ (r : Reader) (min : Nat), r.Roomy → r.CountsUp (r.expr min).after) ∧
      ((ofTokens ts).2 = [] → ids.map UInt32.toNat = List.range ids.length) := by
  intro ids last
  have hroomy := Reader.roomy_ofTokens h
  obtain ⟨us, ds, k, hg, hids, hall⟩ := Reader.numbers_procedures (Reader.ofTokens ts)
  have hlast : last.nextId.toNat = k := (hg.toNat_nextId hroomy).trans (Nat.zero_add k)
  have hk : k ≤ UInt32.size := hlast ▸ Nat.le_of_lt last.nextId.toNat_lt
  have hnat : (ids.map UInt32.toNat).Sublist (List.range k) :=
    map_toNat_numbersFrom hk ▸ hids.map UInt32.toNat
  have hincrease : ids.Pairwise (· < ·) :=
    (List.pairwise_map.mp (List.pairwise_lt_range.sublist hnat)).imp UInt32.lt_iff_toNat_lt.mpr
  refine ⟨hincrease, hincrease.imp UInt32.ne_of_lt, fun id hid => ?_, hroomy, hg.countsUp hroomy,
    fun r min => Reader.countsUp_expr min, fun hnone => ?_⟩
  · rw [UInt32.lt_iff_toNat_lt, hlast]
    exact List.mem_range.mp (hnat.subset (List.mem_map_of_mem hid))
  · have hds : ds = [] := hg.passes.found.symm.trans hnone
    have heq : ids.map UInt32.toNat = List.range k :=
      map_toNat_numbersFrom hk ▸ congrArg (List.map UInt32.toNat) (hall hds)
    have hlen := congrArg List.length heq
    rw [List.length_map, List.length_range] at hlen
    rw [heq, hlen]

/-- `def f(): Int is x := 1 + ; return -x; end`. -/
def faltering : List Token :=
  [⟨.kwDef, "def", .none⟩, ⟨.identifier, "f", .none⟩, ⟨.leftParen, "(", .none⟩,
    ⟨.rightParen, ")", .none⟩, ⟨.colon, ":", .none⟩, ⟨.identifier, "Int", .none⟩,
    ⟨.kwIs, "is", .none⟩, ⟨.identifier, "x", .none⟩, ⟨.colonEqual, ":=", .none⟩,
    ⟨.intLiteral, "1", .none⟩, ⟨.plus, "+", .none⟩, ⟨.semicolon, ";", .none⟩,
    ⟨.kwReturn, "return", .none⟩, ⟨.minus, "-", .none⟩, ⟨.identifier, "x", .none⟩,
    ⟨.semicolon, ";", .none⟩, ⟨.kwEnd, "end", .none⟩]

/-- The `1` has a number, and it is dropped; without the `+` nothing is, and there is no gap. -/
theorem faltering_increase :
    faltering.length < UInt32.size ∧ (ofTokens faltering).1.exprIds = [1, 2] ∧
      (ofTokens faltering).1.exprIds.Pairwise (· < ·) ∧
      (ofTokens (faltering.eraseIdx 10)).2 = [] ∧
      (ofTokens (faltering.eraseIdx 10)).1.exprIds.map UInt32.toNat = List.range 3 := by
  have hlen : faltering.length < UInt32.size := by decide
  have hlen' : (faltering.eraseIdx 10).length < UInt32.size := by decide
  have hids : (ofTokens faltering).1.exprIds = [1, 2] := by cbv
  have hnone : (ofTokens (faltering.eraseIdx 10)).2 = [] := by cbv
  obtain ⟨hincrease, -⟩ := exprIds_increase faltering hlen
  obtain ⟨-, -, -, -, -, -, hwhole⟩ := exprIds_increase (faltering.eraseIdx 10) hlen'
  refine ⟨hlen, hids, hincrease, hnone, (hwhole hnone).trans ?_⟩
  congr 1
  cbv

end Script

end ProcScript
