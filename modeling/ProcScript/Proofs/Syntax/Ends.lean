import ProcScript.Reader.Stmt

/-!
# Syntax — how a reading ends

`o.Ends done lost` says of a reading that `done` holds of its value and of the reader it
leaves, or, if it fails, `lost` of the reader it leaves.  There is one rule for each combinator
of readings, so a reading is followed through its definition; what is asked of `done` and
`lost` is up to the one who follows it.
-/

namespace ProcScript

namespace Outcome

variable {α β : Type} {m n : Nat} {done mid : α → Reader → Prop} {lost : Reader → Prop}

/-- It succeeds with what is `done` or fails with what is `lost`. -/
def Ends (o : Outcome α n) (done : α → Reader → Prop) (lost : Reader → Prop) : Prop :=
  match o with
  | ok a s _ => done a s
  | fail s _ => lost s

theorem mono_mono {l : Nat} (o : Outcome α l) (h : l ≤ m) (h' : m ≤ n) :
    (o.mono h).mono h' = o.mono (Nat.le_trans h h') := by
  cases o <;> rfl

theorem Ends.mono {o : Outcome α m} (h : o.Ends done lost) (hle : m ≤ n) :
    (o.mono hle).Ends done lost := by
  cases o with
  | ok a s hs => exact h
  | fail s hs => exact h

theorem Ends.past {o : Outcome α m} (h : o.Ends done lost) (hlt : m < n) :
    (o.past hlt).Ends done lost :=
  h.mono (Nat.le_of_lt hlt)

theorem Ends.map {o : Outcome α n} {f : α → β} {done : β → Reader → Prop}
    (h : o.Ends (fun a s => done (f a) s) lost) : (o.map f).Ends done lost := by
  cases o with
  | ok a s hs => exact h
  | fail s hs => exact h

theorem Ends.bind {o : Outcome α n} {done : β → Reader → Prop}
    {k : α → (s : Reader) → s.rest.length < n → Outcome β s.rest.length} (h : o.Ends mid lost)
    (hk : ∀ a s hs, mid a s → (k a s hs).Ends done lost) : (o.bind k).Ends done lost := by
  cases o with
  | ok a s hs => exact (hk a s hs h).past hs
  | fail s hs => exact h

theorem Ends.number {o : Outcome (ExprId → Expr) n} {done : Expr → Reader → Prop}
    (h : o.Ends (fun node s => done (node s.nextId) { s with nextId := s.nextId + 1 }) lost) :
    o.number.Ends done lost := by
  cases o with
  | ok node s hs => exact h
  | fail s hs => exact h

theorem Ends.imp {o : Outcome α n} {done' : α → Reader → Prop} {lost' : Reader → Prop}
    (h : o.Ends done lost) (hdone : ∀ a s, done a s → done' a s) (hlost : ∀ s, lost s → lost' s) :
    o.Ends done' lost' := by
  cases o with
  | ok a s hs => exact hdone a s h
  | fail s hs => exact hlost s h

theorem Ends.weaken {o : Outcome α n} {lost' : Reader → Prop} (h : o.Ends done lost)
    (hlost : ∀ s, lost s → lost' s) : o.Ends done lost' :=
  h.imp (fun _ _ => id) hlost

end Outcome

/-- What is read behind a block ends where the block and it do. -/
theorem Reader.Block.ends_bind {α : Type} {n : Nat} {b : Reader.Block n}
    {done : α → Reader → Prop} {lost : Reader → Prop}
    {k : List Stmt → (s : Reader) → s.rest.length ≤ n → Outcome α s.rest.length}
    (h : (k b.stmts b.after b.notLonger).Ends done lost) : (b.bind k).Ends done lost :=
  h.mono b.notLonger

end ProcScript
