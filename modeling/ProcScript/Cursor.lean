import ProcScript.Span
import ProcScript.Text.Slice

/-!
# ProcScript — Cursor

A place in a text that is being read.  The text is held as two lists, what was passed, newest
character first, and what is still to come; `pos` counts what was passed.  Moving takes
characters from the second list to the first.  The text between two places is cut out of the
whole by their offsets (`Cursor.sliceFrom`).  An offset is a 32-bit word: behind 2³² bytes it is
that of an earlier place, and what is cut out is not what stands there.
-/

namespace ProcScript

/-- A place in the text of the script `script`. -/
structure Cursor where
  script : String
  passed : List Char
  rest : List Char
  pos : Position

namespace Cursor

/-- Before the first character of a text. -/
def ofString (script text : String) : Cursor := ⟨script, [], text.toList, .first⟩

/-- The whole text. -/
def text (c : Cursor) : List Char := c.passed.reverse ++ c.rest

/-- Nothing is to come. -/
def atEnd (c : Cursor) : Bool := c.rest.isEmpty

/-- The next character. -/
def peek? (c : Cursor) : Option Char := c.rest.head?

/-- The character after the next one. -/
def peekSecond? (c : Cursor) : Option Char := c.rest.tail.head?

/-- Over the next character; at the end, nowhere. -/
def advance (c : Cursor) : Cursor :=
  match c.rest with
  | []      => c
  | x :: xs => ⟨c.script, x :: c.passed, xs, c.pos.next x⟩

/-- Over the next character, if it is `x`. -/
def eat? (c : Cursor) (x : Char) : Option Cursor :=
  if c.peek? = some x then some c.advance else none

theorem advance_rest (c : Cursor) : c.advance.rest = c.rest.tail := by
  unfold advance
  split <;> simp_all

theorem length_advance_lt {c : Cursor} (h : c.rest ≠ []) :
    c.advance.rest.length < c.rest.length := by
  rw [advance_rest, List.length_tail]
  have := List.length_pos_iff.mpr h
  omega

theorem length_advance_le (c : Cursor) : c.advance.rest.length ≤ c.rest.length := by
  rw [advance_rest, List.length_tail]
  omega

theorem length_eat?_le {c d : Cursor} {x : Char} (h : c.eat? x = some d) :
    d.rest.length ≤ c.rest.length := by
  unfold eat? at h
  split at h
  · obtain rfl := Option.some.inj h
    exact length_advance_le c
  · exact absurd h (by simp)

/-- Over the longest run of characters with `p`. -/
def eatWhile (p : Char → Bool) (c : Cursor) : Cursor :=
  match _h : c.rest with
  | []     => c
  | x :: _ => if p x then c.advance.eatWhile p else c
termination_by c.rest.length
decreasing_by exact length_advance_lt (by simp [*])

theorem rest_eatWhile (p : Char → Bool) (c : Cursor) :
    (c.eatWhile p).rest = c.rest.dropWhile p := by
  fun_induction eatWhile p c with
  | case1 c h => simp [h]
  | case2 c x xs h hp ih => rw [ih, advance_rest, h]; simp [hp]
  | case3 c x xs h hp => simp [h, hp]

theorem length_eatWhile_le (p : Char → Bool) (c : Cursor) :
    (c.eatWhile p).rest.length ≤ c.rest.length := by
  rw [rest_eatWhile]
  exact (List.dropWhile_suffix p).length_le

/-- The end of the text. -/
def finish (c : Cursor) : Cursor := c.eatWhile fun _ => true

/-- The text from `mark`, an earlier place, to here, by the two offsets. -/
def sliceFrom (c : Cursor) (mark : Position) : String :=
  Text.slice c.text mark.offset.toNat c.pos.offset.toNat

/-- The span from `mark`, an earlier place, to here. -/
def spanFrom (c : Cursor) (mark : Position) : Span := ⟨c.script, mark, c.pos⟩

end Cursor

end ProcScript
