/-!
# ProcScript — Span

Places in a script.  A position has a line and a column, counted from 1, and an offset in UTF-8
bytes, counted from 0; all three are 32-bit words.  A span is the stretch of one named script
from a position up to, and without, another.  `Position.next` moves over one character, so the
three counters are always those of the text already passed; `Span.merge` covers two spans of
one script.
-/

namespace ProcScript

/-- A place between two characters of a script. -/
structure Position where
  line : UInt32
  column : UInt32
  offset : UInt32
  deriving DecidableEq, Inhabited

namespace Position

/-- The place before the first character. -/
def first : Position := ⟨1, 1, 0⟩

/-- The place no text has, where every counter is zero. -/
def nowhere : Position := ⟨0, 0, 0⟩

/-- The place after `c`: a line feed opens a line, any other character is one column wide. -/
def next (p : Position) (c : Char) : Position :=
  if c = '\n' then ⟨p.line + 1, 1, p.offset + c.utf8Size.toUInt32⟩
  else ⟨p.line, p.column + 1, p.offset + c.utf8Size.toUInt32⟩

/-- `line:column`. -/
def render (p : Position) : String :=
  toString p.line ++ ":" ++ toString p.column

end Position

/-- The stretch of the script `source` from `start` up to `stop`. -/
structure Span where
  source : String
  start : Position
  stop : Position
  deriving DecidableEq, Inhabited

namespace Span

/-- The span of what was not read from a text. -/
def none : Span := ⟨"", .nowhere, .nowhere⟩

/-- From the earlier start to the later end, by offset; of equal offsets the first span's place
stands, and so does its script. -/
def merge (a b : Span) : Span where
  source := a.source
  start := if a.start.offset ≤ b.start.offset then a.start else b.start
  stop := if b.stop.offset ≤ a.stop.offset then a.stop else b.stop

/-- The bytes to point at, from the first up to and without the second: at least one. -/
def byteRange (s : Span) : Nat × Nat :=
  (s.start.offset.toNat, max s.stop.offset.toNat (s.start.offset.toNat + 1))

/-- `source:line:column`, the place where the span starts. -/
def render (s : Span) : String :=
  s.source ++ ":" ++ s.start.render

end Span

end ProcScript
