import ProcScript.Proofs.Syntax.Ends
import ProcScript.Proofs.Syntax.Words

/-!
# Syntax — expressions by layers

The grammar of expressions by layers has a row of operators for every level, loosest first
(`operatorRows`).  `Reader.layer` reads it by recursive descent: an expression of some rows is
one of the rows behind the first, and then, as long as an operator of the first row comes next,
that operator and one more of them; behind the last row stand the operators before an operand,
and behind these literals, variables and parentheses.

**Reading by precedence is reading by layers** (`Reader.expression_eq_layered`), for every reader,
whatever it holds: the same expression or the same failure, and the same reader afterwards.  What
a threshold of a level lets through is what the rows from that level on read
(`Reader.expr_eq_layer`).  One level is split off at a time (`Reader.operators_eq_follow`): the
operators from a level on are those above it, and then a chain of that level, because behind the
operators above a level none of them comes next (`Reader.ends_operators`).
-/

namespace ProcScript

/-- The operators of one level, by the kinds of their tokens. -/
abbrev OperatorRow := List (Kind × BinaryOp)

/-- The rows of operators, those that hold loosest first. -/
def operatorRows : List OperatorRow :=
  [[(.kwOr, .or)],
    [(.kwAnd, .and)],
    [(.equalEqual, .eq), (.bangEqual, .neq)],
    [(.less, .lt), (.greater, .gt), (.lessEqual, .ltEq), (.greaterEqual, .gtEq)],
    [(.plus, .add), (.minus, .sub)],
    [(.star, .mul), (.slash, .div)]]

/-- The row holds the operators of a level, and no others. -/
def OperatorRow.Holds (row : OperatorRow) (level : Nat) : Prop :=
  ∀ kind, row.lookup kind = (kind.binaryOp?.filter fun o => o.1 = level).map Prod.snd

theorem holds_operatorRows (k : Fin operatorRows.length) : operatorRows[k].Holds (k.val + 1) := by
  have hall : ∀ k : Fin operatorRows.length, ∀ kind ∈ Kind.all, operatorRows[k].lookup kind =
      (kind.binaryOp?.filter fun o => o.1 = k.val + 1).map Prod.snd := by decide
  exact fun kind => hall k kind kind.mem_all

namespace Reader

/-! ### The layers -/

mutual

/-- An expression of the rows: one of the rows behind the first, and a chain of the first. -/
def layer (rows : List OperatorRow) (r : Reader) : Outcome Expr r.rest.length :=
  match rows with
  | []             => r.prefixed
  | row :: tighter =>
    match r.layer tighter with
    | .ok left s h => (s.chain row tighter left).mono h
    | .fail s h    => .fail s h
termination_by (r.rest.length, rows.length + 2)

/-- The operators of the row that follow `left`, each with an operand of the rows behind it. -/
def chain (row : OperatorRow) (tighter : List OperatorRow) (left : Expr) (r : Reader) :
    Outcome Expr (r.rest.length + 1) :=
  match r.next? with
  | none => .ok left r (Nat.lt_succ_self _)
  | some (t, ⟨s, hs⟩) =>
    match row.lookup t.kind with
    | none    => .ok left r (Nat.lt_succ_self _)
    | some op =>
      match ((s.layer tighter).map fun right id =>
          .binary op left right id (left.span.merge right.span)).number with
      | .ok e s' h => (s'.chain row tighter e).mono (by omega)
      | .fail s' h => .fail s' (by omega)
termination_by (r.rest.length, 0)

/-- An operand behind any number of `-` and `not`. -/
def prefixed (r : Reader) : Outcome Expr r.rest.length :=
  match r.next? with
  | none => r.failExpected .expression
  | some (t, ⟨s, hs⟩) =>
    match t.kind with
    | .minus => ((s.prefixed.map fun e id => .unary .neg e id (t.span.merge e.span)).number).past hs
    | .kwNot => ((s.prefixed.map fun e id => .unary .not e id (t.span.merge e.span)).number).past hs
    | _      => r.primary
termination_by (r.rest.length, 1)

/-- A literal, a variable, or an expression of all rows in parentheses. -/
def primary (r : Reader) : Outcome Expr r.rest.length :=
  match r.next? with
  | none => r.failExpected .expression
  | some (t, ⟨s, hs⟩) =>
    match t.kind with
    | .intLiteral => ((literal t s hs).map fun value id => .int value id t.span).number
    | .kwTrue     => (Outcome.ok (fun id => .bool true id t.span) s hs).number
    | .kwFalse    => (Outcome.ok (fun id => .bool false id t.span) s hs).number
    | .identifier => ((variableName t s hs).map fun name id => .var name id t.span).number
    | .leftParen  =>
        (((s.layer operatorRows).bind fun e s' _ => (s'.expect .rightParen).map fun close id =>
          .paren e id (t.span.merge close.span)).number).past hs
    | _           => r.failExpected .expression
termination_by (r.rest.length, 0)

end

/-- An expression, by layers. -/
def layered (r : Reader) : Outcome Expr r.rest.length := r.layer operatorRows

/-! ### What follows an operand -/

end Reader

namespace Outcome

variable {m n : Nat}

/-- The reading, and what follows the expression where it ends. -/
def follow (o : Outcome Expr n)
    (k : Expr → (s : Reader) → Outcome Expr (s.rest.length + 1)) : Outcome Expr n :=
  match o with
  | ok e s h => (k e s).mono h
  | fail s h => fail s h

theorem mono_self (o : Outcome Expr n) (h : n ≤ n) : o.mono h = o := by
  cases o <;> rfl

theorem follow_mono (o : Outcome Expr m) (h : m ≤ n)
    (k : Expr → (s : Reader) → Outcome Expr (s.rest.length + 1)) :
    (o.mono h).follow k = (o.follow k).mono h := by
  cases o with
  | ok e s hs => exact (mono_mono (k e s) hs h).symm
  | fail s hs => rfl

theorem follow_follow (o : Outcome Expr n)
    (k k' : Expr → (s : Reader) → Outcome Expr (s.rest.length + 1)) :
    (o.follow k).follow k' = o.follow fun e s => (k e s).follow k' := by
  cases o with
  | ok e s hs => exact follow_mono (k e s) hs k'
  | fail s hs => rfl

theorem follow_congr {o : Outcome Expr n}
    {k k' : Expr → (s : Reader) → Outcome Expr (s.rest.length + 1)}
    (h : ∀ e s hs, o = .ok e s hs → k e s = k' e s) : o.follow k = o.follow k' := by
  cases o with
  | ok e s hs => rw [follow, follow, h e s hs rfl]
  | fail s hs => rfl

end Outcome

namespace Reader

variable {r s : Reader} {t : Token} {hs : s.rest.length < r.rest.length} {min k level : Nat}
  {op : BinaryOp} {left : Expr} {row : OperatorRow} {tighter : List OperatorRow}

theorem expr_eq_follow (min : Nat) (r : Reader) :
    r.expr min = r.operand.follow fun left s => s.operators min left := by
  rw [expr]
  cases r.operand <;> rfl

theorem layer_nil (r : Reader) : r.layer [] = r.prefixed := by
  rw [layer]

theorem layer_cons (row : OperatorRow) (tighter : List OperatorRow) (r : Reader) :
    r.layer (row :: tighter) =
      (r.layer tighter).follow fun left s => s.chain row tighter left := by
  rw [layer]
  cases r.layer tighter <;> rfl

/-- An operator of level `min` at least, its right operand, and the operators behind that. -/
theorem operators_of_le (hn : r.next? = some (t, ⟨s, hs⟩))
    (hop : t.kind.binaryOp? = some (level, op)) (hmin : min ≤ level) :
    r.operators min left = (((s.expr (level + 1)).map fun right id =>
        Expr.binary op left right id (left.span.merge right.span)).number.follow
      fun e s => s.operators min e).mono (Nat.le_succ_of_le (Nat.le_of_lt hs)) := by
  rw [operators]
  simp only [hn, hop, if_neg (Nat.not_lt.mpr hmin)]
  cases ((s.expr (level + 1)).map fun right id =>
    Expr.binary op left right id (left.span.merge right.span)).number with
  | ok e s' h => exact (Outcome.mono_mono (s'.operators min e) h _).symm
  | fail s' h => rfl

/-- An operator of the row, its right operand, and the operators of the row behind that. -/
theorem chain_of_some (hn : r.next? = some (t, ⟨s, hs⟩)) (hop : row.lookup t.kind = some op) :
    r.chain row tighter left = (((s.layer tighter).map fun right id =>
        Expr.binary op left right id (left.span.merge right.span)).number.follow
      fun e s => s.chain row tighter e).mono (Nat.le_succ_of_le (Nat.le_of_lt hs)) := by
  rw [chain]
  simp only [hn, hop]
  cases ((s.layer tighter).map fun right id =>
    Expr.binary op left right id (left.span.merge right.span)).number with
  | ok e s' h => exact (Outcome.mono_mono (s'.chain row tighter e) h _).symm
  | fail s' h => rfl

theorem chain_of_none (h : ∀ t ∈ r.rest.head?, row.lookup t.kind = none) :
    r.chain row tighter left = .ok left r (Nat.lt_succ_self _) := by
  rw [chain]
  split
  · rfl
  · rename_i t s hlt hn
    rw [h t (by simp [(next?_eq_some hn).1])]

/-! ### Where operators end -/

/-- No operator of level `min` at least comes next. -/
def Stops (min : Nat) (r : Reader) : Prop :=
  ∀ t ∈ r.rest.head?, ∀ level op, t.kind.binaryOp? = some (level, op) → level < min

theorem operators_of_stops (h : r.Stops min) (left : Expr) :
    r.operators min left = .ok left r (Nat.lt_succ_self _) := by
  rw [operators]
  split
  · rfl
  · rename_i t s hlt hn
    split
    · rfl
    · rename_i level op hop
      have hlevel : level < min := h t (by simp [(next?_eq_some hn).1]) level op hop
      rw [if_pos hlevel]

theorem Stops.mono {min' : Nat} (h : r.Stops min) (hle : min ≤ min') : r.Stops min' :=
  fun t ht level op hop => Nat.lt_of_lt_of_le (h t ht level op hop) hle

theorem stops_tightest (r : Reader) : r.Stops tightest := by
  intro t _ level op hop
  obtain ⟨-, rfl⟩ := Kind.binaryOp?_eq_some_iff.mp hop
  exact op.level_lt_tightest

/-- Either none comes next, or one does. -/
theorem stops_or_operator (min : Nat) (r : Reader) : r.Stops min ∨
    ∃ (t : Token) (s : Reader) (hs : s.rest.length < r.rest.length) (level : Nat) (op : BinaryOp),
      r.next? = some (t, ⟨s, hs⟩) ∧ t.kind.binaryOp? = some (level, op) ∧ min ≤ level := by
  cases hn : r.next? with
  | none =>
      refine .inl fun t ht => ?_
      simp [next?_eq_none_iff.mp hn] at ht
  | some ahead =>
      obtain ⟨t, s, hs⟩ := ahead
      have hhead : r.rest.head? = some t := by simp [(next?_eq_some hn).1]
      cases hop : t.kind.binaryOp? with
      | none =>
          refine .inl fun t' ht level op hop' => ?_
          simp_all
      | some o =>
          obtain ⟨level, op⟩ := o
          rcases Nat.lt_or_ge level min with hlevel | hlevel
          · refine .inl fun t' ht level' op' hop' => ?_
            simp_all
          · exact .inr ⟨t, s, hs, level, op, rfl, hop, hlevel⟩

/-- **Behind operators of level `min` at least, none of them comes next.** -/
theorem ends_operators (min : Nat) (left : Expr) (r : Reader) :
    (r.operators min left).Ends (fun _ s => s.Stops min) fun _ => True := by
  rcases stops_or_operator min r with h | ⟨t, s, hs, level, op, hn, hop, hmin⟩
  · rw [operators_of_stops h]
    exact h
  · rw [operators_of_le hn hop hmin]
    refine Outcome.Ends.mono ?_ _
    cases ((s.expr (level + 1)).map fun right id =>
      Expr.binary op left right id (left.span.merge right.span)).number with
    | ok e s' h =>
        have := Nat.lt_trans h hs
        exact (ends_operators min e s').mono h
    | fail s' h => trivial
termination_by r.rest.length

theorem ends_expr (min : Nat) (r : Reader) :
    (r.expr min).Ends (fun _ s => s.Stops min) fun _ => True := by
  rw [expr_eq_follow]
  cases r.operand with
  | ok left s h => exact (ends_operators min left s).mono h
  | fail s h => trivial

/-! ### One level at a time -/

/-- **The operators from a level on are those above it and a chain of that level**, if the operands
of the chain are known. -/
theorem operators_eq_follow (hrow : row.Holds (k + 1)) {r : Reader}
    (hr : ∀ s : Reader, s.rest.length < r.rest.length → s.expr (k + 2) = s.layer tighter)
    (left : Expr) : r.operators (k + 1) left =
      (r.operators (k + 2) left).follow fun e s => s.chain row tighter e := by
  rcases stops_or_operator (k + 1) r with h | ⟨t, s, hs, level, op, hn, hop, hmin⟩
  · have hnone : ∀ t ∈ r.rest.head?, row.lookup t.kind = none := by
      intro t ht
      rw [hrow t.kind]
      cases hop : t.kind.binaryOp? with
      | none => rfl
      | some o => simp [Option.filter, Nat.ne_of_lt (h t ht o.1 o.2 hop)]
    rw [operators_of_stops h, operators_of_stops (h.mono (Nat.le_succ _)), Outcome.follow,
      chain_of_none hnone]
    rfl
  · rcases Nat.eq_or_lt_of_le hmin with rfl | hlt
    · -- An operator of the level itself ends those above it, and opens the chain.
      have hstops : r.Stops (k + 2) := by
        intro t' ht' level' op' hop'
        rw [(next?_eq_some hn).1, List.head?_cons, Option.mem_some_iff] at ht'
        obtain rfl := ht'
        rw [hop] at hop'
        cases hop'
        exact Nat.lt_succ_self _
      have hlookup : row.lookup t.kind = some op := by
        simp [hrow t.kind, hop, Option.filter]
      have hends : (((s.expr (k + 2)).map fun right id =>
          Expr.binary op left right id (left.span.merge right.span)).number).Ends
            (fun _ s => s.Stops (k + 2)) fun _ => True := .number (.map (ends_expr (k + 2) s))
      rw [operators_of_stops hstops, Outcome.follow, chain_of_some hn hlookup,
        operators_of_le hn hop (Nat.le_refl _), ← hr s hs, Outcome.mono_mono]
      refine congrArg (Outcome.mono · _) (Outcome.follow_congr fun e s' h heq => ?_)
      rw [heq] at hends
      rw [operators_eq_follow hrow (fun u hu => hr u (Nat.lt_trans hu (Nat.lt_trans h hs))) e,
        operators_of_stops hends, Outcome.follow, Outcome.mono_self]
    · rw [operators_of_le hn hop hmin, operators_of_le hn hop hlt, Outcome.follow_mono,
        Outcome.follow_follow]
      refine congrArg (Outcome.mono · _) (Outcome.follow_congr fun e s' h _ => ?_)
      exact operators_eq_follow hrow (fun u hu => hr u (Nat.lt_trans hu (Nat.lt_trans h hs))) e
termination_by r.rest.length
decreasing_by all_goals exact Nat.lt_trans h hs

/-- Nothing follows an operand at the tightest level. -/
theorem expr_tightest (r : Reader) (h : tightest ≤ min) : r.expr min = r.operand := by
  rw [expr_eq_follow]
  cases r.operand with
  | ok left s hs =>
      rw [Outcome.follow, operators_of_stops ((stops_tightest s).mono h)]
      rfl
  | fail s hs => rfl

/-- An operand is read by layers, if expressions of shorter readers are. -/
theorem operand_eq_prefixed (hr : ∀ s : Reader, s.rest.length < r.rest.length →
    ∀ k, s.expr (k + 1) = s.layer (operatorRows.drop k)) : r.operand = r.prefixed := by
  rw [operand, prefixed, primary]
  cases hn : r.next? with
  | none => rfl
  | some ahead =>
      obtain ⟨t, s, hs⟩ := ahead
      -- No row is left behind the tightest level, and none is passed over at the first.
      have htight : s.expr tightest = s.prefixed :=
        (hr s hs operatorRows.length).trans s.layer_nil
      have hloose : s.expr 1 = s.layer operatorRows := hr s hs 0
      simp only [htight, hloose]
      cases t.kind <;> rfl

/-- **A threshold lets through what the rows from that level on read.** -/
theorem expr_eq_layer (r : Reader) (k : Nat) : r.expr (k + 1) = r.layer (operatorRows.drop k) := by
  have hr : ∀ s : Reader, s.rest.length < r.rest.length →
      ∀ k, s.expr (k + 1) = s.layer (operatorRows.drop k) := fun s _ k => expr_eq_layer s k
  by_cases hk : k < operatorRows.length
  · have hrow : operatorRows[k].Holds (k + 1) := holds_operatorRows ⟨k, hk⟩
    rw [List.drop_eq_getElem_cons hk, layer_cons, ← expr_eq_layer r (k + 1), expr_eq_follow,
      expr_eq_follow, Outcome.follow_follow]
    refine Outcome.follow_congr fun left s h _ => ?_
    exact operators_eq_follow hrow (fun u hu => hr u (Nat.lt_trans hu h) (k + 1)) left
  · have hk : operatorRows.length ≤ k := Nat.le_of_not_lt hk
    rw [expr_tightest r (Nat.succ_le_succ hk), List.drop_eq_nil_of_le hk, layer_nil,
      operand_eq_prefixed hr]
termination_by (r.rest.length, operatorRows.length - k)

/-- **Reading by precedence is reading by layers.**  From every reader, the two give the same
expression or the same failure, and leave the same reader: at the same token, with the same next
number and the same findings. -/
theorem expression_eq_layered (r : Reader) : r.expression = r.layered :=
  expr_eq_layer r 0

end Reader

end ProcScript
