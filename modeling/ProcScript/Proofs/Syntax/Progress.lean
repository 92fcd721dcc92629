import ProcScript.Proofs.Syntax.Moves
import ProcScript.Proofs.Syntax.Recovery

/-!
# Syntax — progress

**A reader always gets on, and reads nothing behind the first `eof`** (`Reader.progresses`).  Where
a reader stands in its list is a position (`Reader.At`): the token there is the one that comes
next, and it is at the first `eof` or before it.  A move leaves the position as it is or adds one
(`Reader.Move.at`), so no sequence of moves goes back.

What a loop does is told by its turns (`Turns`): from a state, one turn leads to the next state or
to the result.  That a reading is the loop of its turns (`Loops`) is shown by the recursion of the
reading; that each turn which goes on has got on is read off the type of what it reads, since a
reading leaves fewer tokens than it found, and so do a failure behind a token and what is skipped
there.
-/

namespace ProcScript

namespace Token

/-- The tokens that are read: a list that does not end in an `eof` is ended where its last token
stands. -/
def ended (ts : List Token) : List Token :=
  if ts.getLast?.map Token.kind = some .eof then ts
  else ts ++ [.endOfInput ((ts.getLast?.map Token.span).getD .none)]

/-- The position of the first `eof`. -/
def firstEof (us : List Token) : Nat := us.findIdx fun t => t.kind = .eof

end Token

open Token (ended firstEof)

namespace Outcome

variable {α : Type} {m n : Nat}

@[simp] theorem value?_mono (o : Outcome α m) (h : m ≤ n) : (o.mono h).value? = o.value? := by
  cases o <;> rfl

@[simp] theorem after_mono (o : Outcome α m) (h : m ≤ n) : (o.mono h).after = o.after := by
  cases o <;> rfl

end Outcome

/-! ### Turns of a loop -/

section Turns

variable {σ α : Type}

/-- Turn after turn from `s`, the result is `a`. -/
inductive Turns (turn : σ → σ ⊕ α) : σ → α → Prop where
  | over {s : σ} {a : α} (h : turn s = .inr a) : Turns turn s a
  | on {s : σ} {a : α} (s' : σ) (h : turn s = .inl s') (hs : Turns turn s' a) : Turns turn s a

end Turns

namespace Reader

variable {us : List Token} {r s : Reader} {i : Nat}

/-! ### Positions -/

/-- The reader stands at the position `i` of the list `us`. -/
structure At (us : List Token) (i : Nat) (r : Reader) : Prop where
  /-- The first `eof` is in the list, and the position is not behind it. -/
  inList : firstEof us < us.length
  le : i ≤ firstEof us
  /-- The tokens to come are those from here to the first `eof`, and that is what ends them. -/
  rest : r.rest = (us.take (firstEof us)).drop i
  stop : us[firstEof us]? = some r.stop
  /-- The token passed last is the one before. -/
  last : 0 < i → (us[i - 1]?).map Token.kind = some r.last

theorem At.length (h : r.At us i) : r.rest.length + i = firstEof us := by
  have hlength := congrArg List.length h.rest
  rw [List.length_drop, List.length_take] at hlength
  have := h.inList
  have := h.le
  omega

/-- The token that comes next is the one at the position. -/
theorem At.current (h : r.At us i) : us[i]? = some r.current := by
  have hlength := h.length
  rcases hr : r.rest with _ | ⟨t, ts⟩
  · rw [hr, List.length_nil, Nat.zero_add] at hlength
    rw [hlength, h.stop, Reader.current, hr]
    rfl
  · rw [Reader.current, hr, List.head?_cons, Option.getD_some]
    have hget : r.rest[0]? = some t := by rw [hr]; rfl
    rw [h.rest, List.getElem?_drop, List.getElem?_take, Nat.add_zero] at hget
    split at hget
    · exact hget
    · cases hget

/-- Past the next token is one further. -/
theorem At.advance (h : r.At us i) {t : Token} {ts : List Token} (hr : r.rest = t :: ts) :
    r.advance.At us (i + 1) := by
  have hadvance : r.advance = { r with last := t.kind, rest := ts } := by
    rw [Reader.advance]
    split <;> simp_all
  have hlength := h.length
  rw [hr, List.length_cons] at hlength
  have hcurrent := h.current
  rw [Reader.current, hr, List.head?_cons, Option.getD_some] at hcurrent
  refine ⟨h.inList, by omega, ?_, ?_, fun _ => ?_⟩
  · rw [advance_rest, h.rest, List.tail_drop]
  · rw [hadvance]
    exact h.stop
  · rw [Nat.add_sub_cancel, hcurrent, hadvance]
    rfl

/-- The position has no part in what is reported and in how expressions are numbered. -/
theorem At.same (h : r.At us i) (hrest : s.rest = r.rest) (hstop : s.stop = r.stop)
    (hlast : s.last = r.last) : s.At us i :=
  ⟨h.inList, h.le, hrest.trans h.rest, hstop ▸ h.stop, hlast ▸ h.last⟩

/-- **A move leaves the position as it is or adds one.** -/
theorem Move.at (h : r.Move s) (hr : r.At us i) : s.At us i ∨ s.At us (i + 1) := by
  cases h with
  | advance hnext        => exact .inr (hr.advance hnext)
  | number               => exact .inl (hr.same rfl rfl rfl)
  | expected             => exact .inl (hr.same rfl rfl rfl)
  | stray what hnext     => exact .inr ((hr.advance hnext).same rfl rfl rfl)
  | outOfRange hnext     => exact .inr ((hr.advance hnext).same rfl rfl rfl)
  | callAsValue hnext hn => exact .inr ((hr.advance hnext).same rfl rfl rfl)

/-- **No sequence of moves goes back.** -/
theorem Moves.at (h : r.Moves s) (hr : r.At us i) : ∃ j, i ≤ j ∧ s.At us j := by
  refine h.keeps (P := fun s => ∃ j, i ≤ j ∧ s.At us j) ?_ ⟨i, Nat.le_refl i, hr⟩
  rintro s u hmove ⟨j, hle, hj⟩
  rcases hmove.at hj with hu | hu
  · exact ⟨j, hle, hu⟩
  · exact ⟨j + 1, Nat.le_succ_of_le hle, hu⟩

/-- With fewer tokens to come, moves have got on. -/
theorem Moves.farther (h : r.Moves s) (hlt : s.rest.length < r.rest.length) (hr : r.At us i) :
    ∃ j, i < j ∧ s.At us j := by
  obtain ⟨j, -, hj⟩ := h.at hr
  have := hr.length
  have := hj.length
  exact ⟨j, by omega, hj⟩

/-! ### The first position -/

theorem rest_ofTokens (ts : List Token) :
    (ofTokens ts).rest = (ended ts).takeWhile fun t => t.kind ≠ .eof := by
  rw [ended]
  split
  · rfl
  · -- The `eof` that is added is not read, and stands behind everything that is.
    rw [ofTokens, List.takeWhile_append]
    split
    · rename_i hall
      exact (List.takeWhile_sublist _).eq_of_length hall |>.trans (List.append_nil ts).symm
    · rfl

theorem stop_ofTokens (ts : List Token) :
    (ended ts).find? (fun t => t.kind = .eof) = some (ofTokens ts).stop := by
  rw [ended]
  split
  · rename_i hlast
    obtain ⟨t, ht, hkind⟩ := Option.map_eq_some_iff.mp hlast
    have hsome : (ts.find? fun t => t.kind = .eof).isSome :=
      List.find?_isSome.mpr ⟨t, List.mem_of_getLast? ht, decide_eq_true hkind⟩
    obtain ⟨e, he⟩ := Option.isSome_iff_exists.mp hsome
    rw [ofTokens, he, Option.getD_some]
  · rw [List.find?_append, ofTokens]
    cases ts.find? fun t => t.kind = .eof <;> rfl

theorem at_ofTokens (ts : List Token) : (ofTokens ts).At (ended ts) 0 := by
  have hstop := stop_ofTokens ts
  rw [List.find?_eq_getElem?_findIdx] at hstop
  refine ⟨(List.getElem?_eq_some_iff.mp hstop).1, Nat.zero_le _, ?_, hstop, nofun⟩
  rw [rest_ofTokens, List.takeWhile_eq_take_findIdx_not, List.drop_zero, firstEof]
  simp

/-- Behind the first `eof` nothing is read. -/
theorem ofTokens_behind {e : Token} (he : e.kind = .eof) (ts vs : List Token) :
    ofTokens (ts ++ e :: vs) = ofTokens (ts ++ [e]) := by
  simp [ofTokens, List.takeWhile_append, List.find?_append, he]

/-! ### Loops -/

/-- `run` is the loop of its turns, and a turn that goes on has got on. -/
structure Loops {σ α : Type} (reader : σ → Reader) (turn : σ → σ ⊕ α) (run : σ → α) : Prop where
  turns : ∀ s, Turns turn s (run s)
  farther : ∀ s s' us i, turn s = .inl s' → (reader s).At us i →
    ∃ j, i < j ∧ (reader s').At us j

/-- Past the next token, unless that is where to stop. -/
def skipTurn (stops : Kind → Token → Bool) (r : Reader) : Reader ⊕ Reader :=
  match r.rest with
  | []     => .inr r
  | t :: _ => if stops r.last t then .inr r else .inl r.advance

theorem skipTurn_farther {stops : Kind → Token → Bool} (h : skipTurn stops r = .inl s)
    (hr : r.At us i) : ∃ j, i < j ∧ s.At us j := by
  rw [skipTurn] at h
  split at h
  · cases h
  · split at h
    · cases h
    · obtain rfl := Sum.inl.inj h
      exact ⟨i + 1, Nat.lt_succ_self i, hr.advance ‹_›⟩

/-- Where a statement may start. -/
def atBoundary (last : Kind) (t : Token) : Bool := last = .semicolon ∨ t.kind ∈ boundaries

theorem loops_toBoundary : Loops id (skipTurn atBoundary) toBoundary where
  turns r := by
    fun_induction toBoundary r with
    | case1 r h => exact .over (by rw [skipTurn, h])
    | case2 r t ts h hb =>
        exact .over (by rw [skipTurn, h]; exact if_pos (decide_eq_true hb))
    | case3 r t ts h hb ih =>
        exact .on _ (by rw [skipTurn, h]; exact if_neg (by simpa [atBoundary] using hb)) ih
  farther _ _ _ _ := skipTurn_farther

/-- Where a procedure starts. -/
def atDef (_ : Kind) (t : Token) : Bool := t.kind = .kwDef

theorem loops_toDef : Loops id (skipTurn atDef) toDef where
  turns r := by
    fun_induction toDef r with
    | case1 r h => exact .over (by rw [skipTurn, h])
    | case2 r t ts h hd =>
        exact .over (by rw [skipTurn, h]; exact if_pos (decide_eq_true hd))
    | case3 r t ts h hd ih =>
        exact .on _ (by rw [skipTurn, h]; exact if_neg (by simpa [atDef] using hd)) ih
  farther _ _ _ _ := skipTurn_farther

/-- An operator of level `min` at least and its right operand, behind its left one. -/
def operatorTurn (min : Nat) (s : Expr × Reader) : (Expr × Reader) ⊕ (Option Expr × Reader) :=
  match s.2.next? with
  | none => .inr (some s.1, s.2)
  | some (t, ⟨u, _⟩) =>
    match t.kind.binaryOp? with
    | none => .inr (some s.1, s.2)
    | some (level, op) =>
      if level < min then .inr (some s.1, s.2)
      else
        match ((u.expr (level + 1)).map fun right id =>
            .binary op s.1 right id (s.1.span.merge right.span)).number with
        | .ok e u' _ => .inl (e, u')
        | .fail u' _ => .inr (none, u')

/-- What comes of a left operand with what follows it, and the reader behind that. -/
def operatorsFrom (min : Nat) (s : Expr × Reader) : Option Expr × Reader :=
  ((s.2.operators min s.1).value?, (s.2.operators min s.1).after)

theorem turns_operators (min : Nat) (left : Expr) (r : Reader) :
    Turns (operatorTurn min) (left, r) (operatorsFrom min (left, r)) := by
  rw [operatorsFrom, operators]
  split
  · rename_i hn
    exact .over (by rw [operatorTurn, hn]; rfl)
  · rename_i t u hlt hn
    split
    · rename_i hop
      exact .over (by simp only [operatorTurn, hn, hop]; rfl)
    · rename_i level op hop
      split
      · rename_i hmin
        exact .over (by simp only [operatorTurn, hn, hop, if_pos hmin]; rfl)
      · rename_i hmin
        split
        · rename_i e u' h heq
          have hlt' : u'.rest.length < r.rest.length := Nat.lt_trans h hlt
          refine .on (e, u') (by simp only [operatorTurn, hn, hop, if_neg hmin, heq]) ?_
          rw [Outcome.value?_mono, Outcome.after_mono]
          exact turns_operators min e u'
        · rename_i u' h heq
          exact .over (by simp only [operatorTurn, hn, hop, if_neg hmin, heq]; rfl)
termination_by r.rest.length

/-- An operator is passed whether its right operand can be read or not. -/
theorem operatorTurn_farther (min : Nat) (s : Expr × Reader) (hs : s.2.At us i) :
    (∀ s', operatorTurn min s = .inl s' → ∃ j, i < j ∧ s'.2.At us j) ∧
      ∀ u, operatorTurn min s = .inr (none, u) → ∃ j, i < j ∧ u.At us j := by
  rw [operatorTurn]
  split
  · exact ⟨by simp, by simp⟩
  · rename_i t u hlt hn
    split
    · exact ⟨by simp, by simp⟩
    · rename_i level op hop
      split
      · exact ⟨by simp, by simp⟩
      · have hmoves := (((moves_expr (level + 1) u).map (f := fun right id =>
          Expr.binary op s.1 right id (s.1.span.merge right.span))).number).behind (.next? hn)
        split
        · rename_i e u' hlt' heq
          rw [heq] at hmoves
          refine ⟨fun s' h => ?_, by simp⟩
          obtain rfl := Sum.inl.inj h
          exact Moves.farther hmoves (Nat.lt_trans hlt' hlt) hs
        · rename_i u' hle heq
          rw [heq] at hmoves
          refine ⟨by simp, fun v h => ?_⟩
          obtain ⟨-, rfl⟩ := Prod.mk.inj (Sum.inr.inj h)
          exact Moves.farther hmoves (Nat.lt_of_le_of_lt hle hlt) hs

theorem loops_operators (min : Nat) : Loops Prod.snd (operatorTurn min) (operatorsFrom min) where
  turns s := turns_operators min s.1 s.2
  farther s s' _ _ h hs := (operatorTurn_farther min s hs).1 s' h

/-- A statement of a block, behind those before it, or what is skipped in its place. -/
def statementTurn (closers : List Kind) (s : List Stmt × Reader) :
    (List Stmt × Reader) ⊕ (List Stmt × Reader) :=
  match s.2.next? with
  | none => .inr s
  | some (t, ⟨u, _⟩) =>
    if t.kind = .kwDef ∨ t.kind ∈ closers then .inr s
    else
      match u.stmt t with
      | .ok stmt u' _ => .inl (s.1 ++ [stmt], u')
      | .fail u' _    => .inl (s.1, u'.toBoundary)

/-- Statements with those of a block behind them, and the reader behind that. -/
def blockFrom (closers : List Kind) (s : List Stmt × Reader) : List Stmt × Reader :=
  (s.1 ++ (s.2.block closers).stmts, (s.2.block closers).after)

theorem turns_block (closers : List Kind) (before : List Stmt) (r : Reader) :
    Turns (statementTurn closers) (before, r) (blockFrom closers (before, r)) := by
  rw [blockFrom, block]
  split
  · rename_i hn
    exact .over (by simp only [statementTurn, hn, List.append_nil])
  · rename_i t u hlt hn
    split
    · rename_i hend
      exact .over (by simp only [statementTurn, hn, if_pos hend, List.append_nil])
    · rename_i hend
      split
      · rename_i stmt u' h heq
        have hlt' : u'.rest.length < r.rest.length := Nat.lt_trans h hlt
        refine .on (before ++ [stmt], u') (by simp only [statementTurn, hn, if_neg hend, heq]) ?_
        have hturns := turns_block closers (before ++ [stmt]) u'
        rwa [blockFrom, List.append_assoc] at hturns
      · rename_i u' h heq
        have hlt' : u'.toBoundary.rest.length < r.rest.length :=
          Nat.lt_of_le_of_lt (Nat.le_trans (length_toBoundary_le u') h) hlt
        refine .on (before, u'.toBoundary) (by simp only [statementTurn, hn, if_neg hend, heq]) ?_
        exact turns_block closers before u'.toBoundary
termination_by r.rest.length

theorem loops_block (closers : List Kind) :
    Loops Prod.snd (statementTurn closers) (blockFrom closers) where
  turns s := turns_block closers s.1 s.2
  farther s s' us i h hs := by
    rw [statementTurn] at h
    split at h
    · cases h
    · rename_i t u hlt hn
      obtain ⟨hnext, rfl⟩ := next?_eq_some hn
      split at h
      · cases h
      · have hmoves := moves_stmt hnext fun u _ closers => moves_block closers u
        split at h
        · rename_i stmt u' hlt' heq
          obtain rfl := Sum.inl.inj h
          rw [heq] at hmoves
          exact Moves.farther hmoves (Nat.lt_trans hlt' hlt) hs
        · rename_i u' hle heq
          obtain rfl := Sum.inl.inj h
          rw [heq] at hmoves
          exact Moves.farther (Moves.trans hmoves (.toBoundary u'))
            (Nat.lt_of_le_of_lt (Nat.le_trans (length_toBoundary_le u') hle) hlt) hs

/-- A procedure behind those before it, or what is skipped in its place. -/
def procedureTurn (s : List Procedure × Reader) :
    (List Procedure × Reader) ⊕ (List Procedure × Reader) :=
  match s.2.next? with
  | none => .inr s
  | some (t, ⟨u, _⟩) =>
    if t.kind = .kwDef then
      match u.procedure t.span with
      | .ok p u' _ => .inl (s.1 ++ [p], u')
      | .fail u' _ => .inl (s.1, u'.toDef)
    else .inl (s.1, u.pastStray t)

/-- Procedures with those to the end behind them, and the reader there. -/
def proceduresFrom (s : List Procedure × Reader) : List Procedure × Reader :=
  (s.1 ++ s.2.procedures.1, s.2.procedures.2)

theorem turns_procedures (before : List Procedure) (r : Reader) :
    Turns procedureTurn (before, r) (proceduresFrom (before, r)) := by
  rw [proceduresFrom, procedures]
  split
  · rename_i hn
    exact .over (by simp only [procedureTurn, hn, List.append_nil])
  · rename_i t u hlt hn
    split
    · rename_i hdef
      split
      · rename_i p u' h heq
        have hlt' : u'.rest.length < r.rest.length := Nat.lt_trans h hlt
        refine .on (before ++ [p], u') (by simp only [procedureTurn, hn, if_pos hdef, heq]) ?_
        have hturns := turns_procedures (before ++ [p]) u'
        rwa [proceduresFrom, List.append_assoc] at hturns
      · rename_i u' h heq
        have hlt' : u'.toDef.rest.length < r.rest.length :=
          Nat.lt_of_le_of_lt (Nat.le_trans (length_toDef_le u') h) hlt
        refine .on (before, u'.toDef) (by simp only [procedureTurn, hn, if_pos hdef, heq]) ?_
        exact turns_procedures before u'.toDef
    · rename_i hdef
      have hlt' : (u.pastStray t).rest.length < r.rest.length :=
        Nat.lt_of_le_of_lt (length_pastStray_le t u) hlt
      refine .on (before, u.pastStray t) (by simp only [procedureTurn, hn, if_neg hdef]) ?_
      exact turns_procedures before (u.pastStray t)
termination_by r.rest.length

theorem loops_procedures : Loops Prod.snd procedureTurn proceduresFrom where
  turns s := turns_procedures s.1 s.2
  farther s s' us i h hs := by
    rw [procedureTurn] at h
    split at h
    · cases h
    · rename_i t u hlt hn
      obtain ⟨hnext, rfl⟩ := next?_eq_some hn
      split at h
      · have hmoves := (moves_procedure t.span s.2.advance).behind (.one (.advance hnext))
        split at h
        · rename_i p u' hlt' heq
          obtain rfl := Sum.inl.inj h
          rw [heq] at hmoves
          exact Moves.farther hmoves (Nat.lt_trans hlt' hlt) hs
        · rename_i u' hle heq
          obtain rfl := Sum.inl.inj h
          rw [heq] at hmoves
          exact Moves.farther (Moves.trans hmoves (.toDef u'))
            (Nat.lt_of_le_of_lt (Nat.le_trans (length_toDef_le u') hle) hlt) hs
      · obtain rfl := Sum.inl.inj h
        have hmoves := (Moves.one (.stray (.token .kwDef) hnext)).trans (.toDef _)
        exact hmoves.farther (Nat.lt_of_le_of_lt (length_pastStray_le t _) hlt) hs

/-! ### Progress -/

/-- **A reader always gets on, and reads nothing behind the first `eof`.**  The reading of a list
moves from its first token to the first `eof`; the position never decreases, and what comes next,
the token behind that and the one passed last are in the list.  Each of the loops ends, and a turn
gets on if the loop goes on behind it or an operand fails in it. -/
theorem progresses (ts : List Token) :
    (ofTokens ts).At (ended ts) 0 ∧
    (ofTokens ts).Moves (ofTokens ts).procedures.2 ∧
    (ofTokens ts).procedures.2.At (ended ts) (firstEof (ended ts)) ∧
    (∀ r, (ofTokens ts).Moves r → ∃ i, r.At (ended ts) i) ∧
    (∀ (us : List Token) (i : Nat) (r s : Reader), r.At us i → r.Moves s →
      ∃ j, i ≤ j ∧ s.At us j) ∧
    (∀ (us : List Token) (i : Nat) (r : Reader), r.At us i →
      us[i]? = some r.current ∧ (r.rest ≠ [] → us[i + 1]? = some r.advance.current)) ∧
    Loops Prod.snd procedureTurn proceduresFrom ∧
    (∀ closers, Loops Prod.snd (statementTurn closers) (blockFrom closers)) ∧
    Loops id (skipTurn atBoundary) toBoundary ∧
    Loops id (skipTurn atDef) toDef ∧
    (∀ min, Loops Prod.snd (operatorTurn min) (operatorsFrom min)) ∧
    (∀ (min : Nat) (s : Expr × Reader) (r : Reader) (us : List Token) (i : Nat),
      operatorTurn min s = .inr (none, r) → s.2.At us i → ∃ j, i < j ∧ r.At us j) ∧
    ∀ (e : Token) (us vs ws : List Token), e.kind = .eof →
      Script.ofTokens (us ++ e :: vs) = Script.ofTokens (us ++ e :: ws) := by
  have hstart := at_ofTokens ts
  have hmoves := moves_procedures (ofTokens ts)
  refine ⟨hstart, hmoves, ?_, fun r hr => ?_, fun us i r s hr hs => hs.at hr,
    fun us i r hr => ⟨hr.current, fun hne => ?_⟩, loops_procedures, loops_block, loops_toBoundary,
    loops_toDef, loops_operators, fun min s r us i h hs => (operatorTurn_farther min s hs).2 r h,
    fun e us vs ws he => ?_⟩
  · obtain ⟨j, -, hj⟩ := hmoves.at hstart
    have hlength := hj.length
    rw [procedures_rest, List.length_nil, Nat.zero_add] at hlength
    exact hlength ▸ hj
  · obtain ⟨j, -, hj⟩ := hr.at hstart
    exact ⟨j, hj⟩
  · obtain ⟨t, us', hnext⟩ := List.exists_cons_of_ne_nil hne
    exact (hr.advance hnext).current
  · rw [Script.ofTokens, ofTokens_behind he us vs, ← ofTokens_behind he us ws, ← Script.ofTokens]

end Reader

end ProcScript
