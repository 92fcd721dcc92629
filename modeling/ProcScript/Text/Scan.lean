/-!
# ProcScript — Text — Scan

Readings from the front of a text, which succeed with a value and the rest or fail.  A choice
takes the first reading that succeeds; a repetition takes as many as succeed and move on, so it
ends on every text.
-/

namespace ProcScript.Text

/-- A reading of an `α` from the front of a text. -/
abbrev Scan := StateT (List Char) Option

namespace Scan

variable {α β : Type}

/-- One character with `p`. -/
def char (p : Char → Bool) : Scan Char
  | c :: cs => if p c then some (c, cs) else none
  | []      => none

/-- The character `c`. -/
def one (c : Char) : Scan Unit := discard (char (· == c))

/-- The characters of `cs`, in order. -/
def word (cs : List Char) : Scan Unit := cs.forM one

/-- The longest run of characters with `p`, which may be empty. -/
def run (p : Char → Bool) : Scan (List Char) := fun cs => some (cs.takeWhile p, cs.dropWhile p)

/-- The end of the text. -/
def finish : Scan Unit
  | []     => some ((), [])
  | _ :: _ => none

/-- The values of a repeated reading, and what is left. -/
def collect (p : Scan α) (cs : List Char) : List α × List Char :=
  match p cs with
  | none => ([], cs)
  | some (a, rest) =>
      if rest.length < cs.length then
        let (as, last) := collect p rest
        (a :: as, last)
      else ([], cs)
termination_by cs.length

/-- A reading as often as it succeeds and moves on. -/
def many (p : Scan α) : Scan (List α) := fun cs => some (collect p cs)

/-- A reading once or more often. -/
def many1 (p : Scan α) : Scan (List α) := do return (← p) :: (← many p)

/-- A reading once or more often, with another between any two. -/
def sepBy1 (p : Scan α) (sep : Scan β) : Scan (List α) := do
  return (← p) :: (← many (sep *> p))

/-- A reading `n` times. -/
def times (n : Nat) (p : Scan α) : Scan (List α) := (List.replicate n ()).mapM fun _ => p

/-- A reading that has to be right in what it read. -/
def verify (p : Scan α) (ok : α → Bool) : Scan α := do
  let a ← p
  if ok a then return a else failure

end Scan

end ProcScript.Text
